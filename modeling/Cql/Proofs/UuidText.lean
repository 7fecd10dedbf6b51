import Cql.Proofs.Quoting
import Cql.Uuid

/-!
The printed form of an identifier is read back as the identifier.
-/

namespace Cql.Uuid

theorem digit_ne {n : Nat} (h : n < 16) {c : Char} (hc : Hex.digitValue c = none) :
    Hex.digit n ≠ c := by
  rintro rfl
  rw [(Hex.digit_spec h).1] at hc
  cases hc

/-- The groups with their hyphens are the digits of all bytes. -/
theorem readHyphenated_print (u : Uuid) : readHyphenated u.print = some u := by
  obtain ⟨bytes, hlength⟩ := u
  match bytes, hlength with
  | [b0, b1, b2, b3, b4, b5, b6, b7, b8, b9, b10, b11, b12, b13, b14, b15], hlength =>
    show readSimple (Hex.encode [b0, b1, b2, b3, b4, b5, b6, b7, b8, b9, b10, b11, b12, b13, b14,
      b15]) = _
    rw [readSimple, Hex.decode_encode, Option.bind_some, ofBytes?, dif_pos hlength]

theorem length_print (u : Uuid) : u.print.length = 36 := by
  obtain ⟨bytes, hlength⟩ := u
  match bytes, hlength with
  | [_, _, _, _, _, _, _, _, _, _, _, _, _, _, _, _], _ => rfl

theorem print_head (u : Uuid) : ∃ n rest, n < 16 ∧ u.print = Hex.digit n :: rest := by
  obtain ⟨bytes, hlength⟩ := u
  match bytes, hlength with
  | [b0, _, _, _, _, _, _, _, _, _, _, _, _, _, _, _], _ =>
    have hb := b0.toNat_lt
    exact ⟨b0.toNat / 16, _, by omega, rfl⟩

theorem read_print (u : Uuid) : read u.print = some u := by
  obtain ⟨n, rest, hn, hprint⟩ := u.print_head
  have hlong : ¬ u.print.length = 32 := by
    rw [length_print]
    decide
  have hbrace : ∀ inner, u.print ≠ '\x7b' :: inner := by
    intro inner heq
    rw [hprint] at heq
    exact digit_ne hn (by decide) (List.cons.inj heq).1
  have hurn : ("urn:uuid:".toList.isPrefixOf u.print) = false := by
    have hword : "urn:uuid:".toList = 'u' :: "rn:uuid:".toList := by decide
    rw [hprint, hword, List.isPrefixOf, beq_false_of_ne (digit_ne hn (by decide)).symm,
      Bool.false_and]
  rw [read, if_neg hlong, hurn, readHyphenated_print]
  · rfl
  · exact hbrace

theorem print_isNameChar {u : Uuid} : ∀ c ∈ u.print, Identifier.isNameChar c = true := by
  obtain ⟨bytes, hlength⟩ := u
  intro c hc
  simp only [print, Text.join, List.mem_append, List.mem_singleton] at hc
  rcases hc with ((h | rfl) | ((h | rfl) | ((h | rfl) | ((h | rfl) | h))))
  all_goals first | exact Hex.encode_isNameChar c h | decide

end Cql.Uuid
