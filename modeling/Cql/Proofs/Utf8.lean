import Cql.Text.Utf8

/-!
UTF-8 loses nothing: the decoder takes the bytes of each character for that character, and so the bytes
of a text for that text.
-/

namespace Cql.Utf8

theorem toNat_byte {n : Nat} (h : n < 256) : (UInt8.ofNat n).toNat = n := by
  simp [Nat.mod_eq_of_lt h]

/-- A byte that ends no character, inside its bounds. -/
theorem decodeFrom_continue (done : Text) (p : Pending) (index n : Nat) (rest : Bytes)
    (hn : n < 256) (hlow : p.low ≤ n) (hhigh : n ≤ p.high) (howed : 1 < p.owed) :
    decodeFrom done (some p) index (.ofNat n :: rest) =
      decodeFrom done (some ⟨p.value * 64 + (n - 0x80), p.owed - 1, 0x80, 0xBF, p.read + 1⟩)
        (index + 1) rest := by
  simp only [decodeFrom, toNat_byte hn]
  rw [if_pos ⟨hlow, hhigh⟩, if_neg (by omega)]

/-- The last byte of a character. -/
theorem decodeFrom_last (done : Text) (p : Pending) (index n : Nat) (rest : Bytes)
    (hn : n < 256) (hlow : p.low ≤ n) (hhigh : n ≤ p.high) (howed : p.owed = 1) :
    decodeFrom done (some p) index (.ofNat n :: rest) =
      decodeFrom (Char.ofNat (p.value * 64 + (n - 0x80)) :: done) none (index + 1) rest := by
  simp only [decodeFrom, toNat_byte hn]
  rw [if_pos ⟨hlow, hhigh⟩, if_pos (by omega)]

theorem decodeFrom_lead (done : Text) (p : Pending) (index n : Nat) (rest : Bytes)
    (hn : n < 256) (hlow : 0x80 ≤ n) (hlead : lead n = some p) :
    decodeFrom done none index (.ofNat n :: rest) = decodeFrom done (some p) (index + 1) rest := by
  simp only [decodeFrom, toNat_byte hn]
  rw [if_neg (by omega), hlead]

/-- The first byte of a character of two bytes announces its last byte. -/
theorem lead_two {n : Nat} (hlow : 0x80 ≤ n) (hhigh : n < 0x800) :
    lead (0xC0 + n / 64) = some ⟨n / 64, 1, 0x80, 0xBF, 1⟩ := by
  unfold lead
  rw [if_pos (by omega), Nat.add_sub_cancel_left]

/-- The bounds of the second byte leave out overlong forms and surrogates, so that every character of
three bytes is within them. -/
theorem lead_three {n : Nat} (hlow : 0x800 ≤ n) (hhigh : n < 0x10000)
    (hvalid : n < 0xD800 ∨ 0xDFFF < n) :
    ∃ p, lead (0xE0 + n / 4096) = some p ∧ p.value = n / 4096 ∧ p.owed = 2 ∧
      p.low ≤ 0x80 + n / 64 % 64 ∧ 0x80 + n / 64 % 64 ≤ p.high := by
  unfold lead
  rw [if_neg (by omega)]
  split
  · exact ⟨_, rfl, by dsimp only; omega, rfl, by dsimp only; omega, by dsimp only; omega⟩
  · split
    · exact ⟨_, rfl, by dsimp only; omega, rfl, by dsimp only; omega, by dsimp only; omega⟩
    · rw [if_pos (by omega)]
      exact ⟨_, rfl, by dsimp only; omega, rfl, by dsimp only; omega, by dsimp only; omega⟩

/-- The same for four bytes, which end at U+10FFFF. -/
theorem lead_four {n : Nat} (hlow : 0x10000 ≤ n) (hhigh : n < 0x110000) :
    ∃ p, lead (0xF0 + n / 262144) = some p ∧ p.value = n / 262144 ∧ p.owed = 3 ∧
      p.low ≤ 0x80 + n / 4096 % 64 ∧ 0x80 + n / 4096 % 64 ≤ p.high := by
  unfold lead
  rw [if_neg (by omega), if_neg (by omega), if_neg (by omega), if_neg (by omega)]
  split
  · exact ⟨_, rfl, by dsimp only; omega, rfl, by dsimp only; omega, by dsimp only; omega⟩
  · split
    · exact ⟨_, rfl, by dsimp only; omega, rfl, by dsimp only; omega, by dsimp only; omega⟩
    · rw [if_pos (by omega)]
      exact ⟨_, rfl, by dsimp only; omega, rfl, by dsimp only; omega, by dsimp only; omega⟩

theorem decodeFrom_two (done : Text) (index : Nat) {n : Nat} (hlow : 0x80 ≤ n) (hhigh : n < 0x800)
    (rest : Bytes) :
    decodeFrom done none index (.ofNat (0xC0 + n / 64) :: .ofNat (0x80 + n % 64) :: rest) =
      decodeFrom (Char.ofNat n :: done) none (index + 2) rest := by
  have hvalue : n / 64 * 64 + (0x80 + n % 64 - 0x80) = n := by omega
  rw [decodeFrom_lead _ _ _ _ _ (by omega) (by omega) (lead_two hlow hhigh),
    decodeFrom_last _ _ _ _ _ (by omega) (by dsimp only; omega) (by dsimp only; omega) rfl, hvalue]

theorem decodeFrom_three (done : Text) (index : Nat) {n : Nat} (hlow : 0x800 ≤ n) (hhigh : n < 0x10000)
    (hvalid : n < 0xD800 ∨ 0xDFFF < n) (rest : Bytes) :
    decodeFrom done none index (.ofNat (0xE0 + n / 4096) :: .ofNat (0x80 + n / 64 % 64) ::
        .ofNat (0x80 + n % 64) :: rest) =
      decodeFrom (Char.ofNat n :: done) none (index + 3) rest := by
  obtain ⟨p, hp, hpv, hpo, hpl, hph⟩ := lead_three hlow hhigh hvalid
  have hvalue : (n / 4096 * 64 + (0x80 + n / 64 % 64 - 0x80)) * 64 + (0x80 + n % 64 - 0x80) = n := by
    omega
  rw [decodeFrom_lead _ _ _ _ _ (by omega) (by omega) hp,
    decodeFrom_continue _ _ _ _ _ (by omega) hpl hph (by omega),
    decodeFrom_last _ _ _ _ _ (by omega) (by dsimp only; omega) (by dsimp only; omega)
      (by dsimp only; omega), hpv, hvalue]

theorem decodeFrom_four (done : Text) (index : Nat) {n : Nat} (hlow : 0x10000 ≤ n)
    (hhigh : n < 0x110000) (rest : Bytes) :
    decodeFrom done none index (.ofNat (0xF0 + n / 262144) :: .ofNat (0x80 + n / 4096 % 64) ::
        .ofNat (0x80 + n / 64 % 64) :: .ofNat (0x80 + n % 64) :: rest) =
      decodeFrom (Char.ofNat n :: done) none (index + 4) rest := by
  obtain ⟨p, hp, hpv, hpo, hpl, hph⟩ := lead_four hlow hhigh
  have hvalue : ((n / 262144 * 64 + (0x80 + n / 4096 % 64 - 0x80)) * 64
      + (0x80 + n / 64 % 64 - 0x80)) * 64 + (0x80 + n % 64 - 0x80) = n := by
    omega
  rw [decodeFrom_lead _ _ _ _ _ (by omega) (by omega) hp,
    decodeFrom_continue _ _ _ _ _ (by omega) hpl hph (by omega),
    decodeFrom_continue _ _ _ _ _ (by omega) (by dsimp only; omega) (by dsimp only; omega)
      (by dsimp only; omega),
    decodeFrom_last _ _ _ _ _ (by omega) (by dsimp only; omega) (by dsimp only; omega)
      (by dsimp only; omega), hpv, hvalue]

/-- The number of a character says how many bytes it has. -/
theorem decodeFrom_encodeChar (done : Text) (index : Nat) (c : Char) (rest : Bytes) :
    decodeFrom done none index (encodeChar c ++ rest) =
      decodeFrom (c :: done) none (index + (encodeChar c).length) rest := by
  have hvalid : c.toNat < 0xD800 ∨ 0xDFFF < c.toNat ∧ c.toNat < 0x110000 := c.valid
  have hof : Char.ofNat c.toNat = c := Char.ofNat_toNat c
  generalize hn : c.toNat = n at *
  simp only [encodeChar, hn]
  split
  · next hone =>
    simp only [List.cons_append, List.nil_append, decodeFrom, toNat_byte (show n < 256 by omega)]
    rw [if_pos hone, hof]
    rfl
  split
  · next hone htwo =>
    have hread := decodeFrom_two done index (Nat.not_lt.1 hone) htwo rest
    rw [hof] at hread
    exact hread
  split
  · next htwo hthree =>
    have hread := decodeFrom_three done index (Nat.not_lt.1 htwo) hthree (by omega) rest
    rw [hof] at hread
    exact hread
  · next hthree =>
    have hread := decodeFrom_four done index (Nat.not_lt.1 hthree) (by omega) rest
    rw [hof] at hread
    exact hread

theorem decodeFrom_encode (done : Text) (index : Nat) (t : Text) :
    decodeFrom done none index (encode t) = .ok (done.reverse ++ t) := by
  induction t generalizing done index with
  | nil => simp [encode, decodeFrom]
  | cons c t ih =>
    rw [encode, List.flatMap_cons, decodeFrom_encodeChar]
    have h := ih (c :: done) (index + (encodeChar c).length)
    rw [encode] at h
    rw [h]
    simp

theorem decode_encode (t : Text) : decode (encode t) = .ok t := decodeFrom_encode [] 0 t

end Cql.Utf8
