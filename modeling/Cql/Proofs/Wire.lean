import Cql.Proofs.BigEndian
import Cql.Wire

/-!
Every reader takes back what its writer wrote, and leaves whatever follows.
-/

namespace Cql.Wire

theorem split?_append {count : Nat} {first : Bytes} (h : first.length = count) (rest : Bytes) :
    split? count (first ++ rest) = some (first, rest) := by
  subst h
  simp [split?]

theorem readRaw_append {count : Nat} {first : Bytes} (h : first.length = count) (rest : Bytes) :
    readRaw count (first ++ rest) = .ok (first, rest) := by
  simp [readRaw, split?_append h]

theorem readInt_ofInt {i : Int} (hlow : -2 ^ 31 ≤ i) (hhigh : i < 2 ^ 31) (rest : Bytes) :
    readInt (BigEndian.ofInt 4 i ++ rest) = .ok (Int32.ofInt i, rest) := by
  rw [readInt, split?_append (BigEndian.length_ofInt 4 i)]
  dsimp only
  rw [BigEndian.toInt_ofInt (by omega) (by omega)]

theorem readInt_writeInt (i : Int32) (rest : Bytes) :
    readInt (writeInt i ++ rest) = .ok (i, rest) := by
  have hlow := i.le_toInt
  have hhigh := i.toInt_lt
  rw [writeInt, readInt_ofInt hlow hhigh, Int32.ofInt_toInt]

theorem readShort_ofNat {n : Nat} (h : n < 2 ^ 16) (rest : Bytes) :
    readShort (BigEndian.ofNat 2 n ++ rest) = .ok (UInt16.ofNat n, rest) := by
  rw [readShort, split?_append (BigEndian.length_ofNat 2 n)]
  dsimp only
  rw [BigEndian.toNat_ofNat_of_lt (by omega)]

theorem readShort_writeShort (n : UInt16) (rest : Bytes) :
    readShort (writeShort n ++ rest) = .ok (n, rest) := by
  rw [writeShort, readShort_ofNat n.toNat_lt, UInt16.ofNat_toNat]

/-- A length of four bytes, read as the signed number it is. -/
theorem readInt_ofNat {n : Nat} (h : n < 2 ^ 31) (rest : Bytes) :
    readInt (BigEndian.ofNat 4 n ++ rest) = .ok (Int32.ofInt n, rest) := by
  have hsame : BigEndian.ofNat 4 n = BigEndian.ofInt 4 n := by
    rw [BigEndian.ofInt, Int.emod_eq_of_lt (by omega) (by omega), Int.toNat_natCast]
  rw [hsame, readInt_ofInt (by omega) (by omega)]

theorem toInt_ofLength {n : Nat} (h : n < 2 ^ 31) : (Int32.ofInt (n : Int)).toInt = n :=
  Int32.toInt_ofInt_of_le (by omega) (by omega)

theorem ofLength_not_neg {n : Nat} (h : n < 2 ^ 31) : ¬ Int32.ofInt (n : Int) < 0 := by
  rw [Int32.lt_iff_toInt_lt, toInt_ofLength h]
  simp

theorem writeIntLength_eq {n : Nat} (h : n < 2 ^ 31) : writeIntLength n = .ok (BigEndian.ofNat 4 n) :=
  if_pos h

theorem readIntLength_write {n : Nat} {bytes : Bytes} (h : writeIntLength n = .ok bytes)
    (rest : Bytes) : readIntLength (bytes ++ rest) = .ok (n, rest) := by
  unfold writeIntLength at h
  split at h
  · rename_i hn
    cases h
    rw [readIntLength, readInt_ofNat hn]
    simp [bind, Except.bind, ofLength_not_neg hn, toInt_ofLength hn]
  · cases h

theorem writeBytes_eq {value bytes : Bytes} (h : writeBytes value = .ok bytes) :
    value.length < 2 ^ 31 ∧ bytes = BigEndian.ofNat 4 value.length ++ value := by
  unfold writeBytes writeIntLength at h
  split at h
  · rename_i hn
    cases h
    exact ⟨hn, rfl⟩
  · cases h

theorem readOptional_write {value : Option Bytes} {bytes : Bytes}
    (h : writeOptional value = .ok bytes) (rest : Bytes) :
    readOptional (bytes ++ rest) = .ok (value, rest) := by
  cases value with
  | none =>
    cases h
    rw [readOptional, readInt_writeInt]
    rfl
  | some value =>
    obtain ⟨hn, rfl⟩ := writeBytes_eq h
    rw [readOptional, List.append_assoc, readInt_ofNat hn]
    simp only [bind, Except.bind, ofLength_not_neg hn, if_false, toInt_ofLength hn, Int.toNat_natCast,
      readRaw_append rfl]

/-- An absent value takes room too. -/
theorem writeOptional_ne_nil {value : Option Bytes} {bytes : Bytes}
    (h : writeOptional value = .ok bytes) : bytes ≠ [] := by
  intro hnil
  have hread := readOptional_write h []
  rw [hnil] at hread
  cases hread

theorem readBytes_write {value bytes : Bytes} (h : writeBytes value = .ok bytes) (rest : Bytes) :
    readBytes (bytes ++ rest) = .ok (value, rest) := by
  obtain ⟨hn, rfl⟩ := writeBytes_eq h
  rw [readBytes, List.append_assoc, readIntLength_write (writeIntLength_eq hn)]
  exact readRaw_append rfl rest

theorem readShortBytes_write {value bytes : Bytes} (h : writeShortBytes value = .ok bytes)
    (rest : Bytes) : readShortBytes (bytes ++ rest) = .ok (value, rest) := by
  unfold writeShortBytes writeShortLength at h
  split at h
  · rename_i hn
    cases h
    rw [readShortBytes, List.append_assoc, readShort_ofNat hn]
    exact readRaw_append (UInt16.toNat_ofNat_of_lt' hn).symm rest
  · cases h

theorem readSize_write {version : Version} {size : Nat} {bytes : Bytes}
    (h : writeSize version size = .ok bytes) (rest : Bytes) :
    readSize version (bytes ++ rest) = .ok (size, rest) := by
  unfold writeSize at h
  unfold readSize
  split at h
  · rw [if_pos (by assumption)]
    exact readIntLength_write h rest
  · rw [if_neg (by assumption)]
    unfold writeShortLength at h
    split at h
    · rename_i hn
      cases h
      rw [readShort_ofNat hn]
      simp only [bind, Except.bind, UInt16.toNat_ofNat_of_lt' hn]
    · cases h

theorem readElement_write {version : Version} {value bytes : Bytes}
    (h : writeElement version value = .ok bytes) (rest : Bytes) :
    readElement version (bytes ++ rest) = .ok (some value, rest) := by
  unfold writeElement at h
  unfold readElement
  split at h
  · rw [if_pos (by assumption)]
    have hpresent : writeOptional (some value) = .ok bytes := h
    exact readOptional_write hpresent rest
  · rw [if_neg (by assumption), readShortBytes_write h]
    rfl

/-- Sizes take room, so that no collection is written as no bytes at all. -/
theorem writeSize_ne_nil {version : Version} {size : Nat} {bytes : Bytes}
    (h : writeSize version size = .ok bytes) : bytes ≠ [] := by
  intro hnil
  have hread := readSize_write h []
  rw [hnil] at hread
  revert hread
  cases version <;>
    simp [readSize, readIntLength, readInt, readShort, split?, Version.hasWideSizes, bind, Except.bind]

end Cql.Wire
