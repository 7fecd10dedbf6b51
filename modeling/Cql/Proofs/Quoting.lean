import Cql.Proofs.Blanks
import Cql.Text.Hex
import Cql.Text.Quoted

/-!
String literals and hexadecimal digits give back what they were written for.
-/

namespace Cql

namespace Quoted

theorem double_cons_quote (t : Text) : double ('\x27' :: t) = '\x27' :: '\x27' :: double t := rfl

theorem double_cons {c : Char} (hc : c ≠ '\x27') (t : Text) : double (c :: t) = c :: double t := by
  simp [double, hc]

theorem undouble_cons {c : Char} (hc : c ≠ '\x27') (t : Text) :
    undouble (c :: t) = c :: undouble t := by
  rw [undouble]
  exact fun _ h => absurd h hc

theorem undouble_double (t : Text) : undouble (double t) = t := by
  induction t with
  | nil => rfl
  | cons c t ih =>
    by_cases hc : c = '\x27'
    · subst hc
      rw [double_cons_quote, undouble, ih]
    · rw [double_cons hc, undouble_cons hc, ih]

theorem double_eq_self {t : Text} (h : '\x27' ∉ t) : double t = t := by
  induction t with
  | nil => rfl
  | cons c t ih =>
    obtain ⟨hc, ht⟩ := not_or.1 (mt List.mem_cons.2 h)
    rw [double_cons fun heq => hc heq.symm, ih ht]

theorem quote_eq (t : Text) : quote t = '\x27' :: (double t ++ ['\x27']) := rfl

theorem isQuoted_between (inner : Text) : isQuoted ('\x27' :: (inner ++ ['\x27'])) = true := by
  simp only [isQuoted, List.length_cons, List.length_append, List.length_nil, List.head?_cons,
    Bool.and_eq_true, decide_eq_true_eq, beq_self_eq_true, beq_iff_eq]
  refine ⟨⟨by omega, trivial⟩, ?_⟩
  rw [← List.cons_append, List.getLast?_concat]

theorem between_eq (inner : Text) : (('\x27' :: (inner ++ ['\x27'])).drop 1).dropLast = inner := by
  rw [List.drop_one, List.tail_cons, List.dropLast_concat]

theorem unquote_between (inner : Text) :
    unquote ('\x27' :: (inner ++ ['\x27'])) = some (undouble inner) := by
  rw [unquote, if_pos (isQuoted_between inner), between_eq]

theorem unquote_quote (t : Text) : unquote (quote t) = some t := by
  rw [quote_eq, unquote_between, undouble_double]

theorem unquoteIfQuoted_quote (t : Text) : unquoteIfQuoted (quote t) = t := by
  rw [unquoteIfQuoted, unquote_quote]
  rfl

theorem unquoteIfQuoted_bare {t : Text} (h : t.head? ≠ some '\x27') : unquoteIfQuoted t = t := by
  have hbare : isQuoted t = false := by simp [isQuoted, h]
  rw [unquoteIfQuoted, unquote, hbare]
  rfl

end Quoted

namespace Hex

/-- A digit has its value, in the alphabet of names. -/
theorem digit_spec {n : Nat} (h : n < 16) :
    digitValue (digit n) = some n ∧ Identifier.isNameChar (digit n) = true := by
  have hall : ∀ k : Fin 16, digitValue (digit k) = some k.val ∧
      Identifier.isNameChar (digit k) = true := by decide
  exact hall ⟨n, h⟩

theorem encode_cons (b : UInt8) (bytes : Bytes) :
    encode (b :: bytes) = digit (b.toNat / 16) :: digit (b.toNat % 16) :: encode bytes := rfl

theorem decode_encode (bytes : Bytes) : decode (encode bytes) = some bytes := by
  induction bytes with
  | nil => rfl
  | cons b bytes ih =>
    have hb : b.toNat < 256 := b.toNat_lt
    have hhigh := (digit_spec (show b.toNat / 16 < 16 by omega)).1
    have hlow := (digit_spec (show b.toNat % 16 < 16 by omega)).1
    have hvalue : 16 * (b.toNat / 16) + b.toNat % 16 = b.toNat := Nat.div_add_mod _ _
    simp only [encode_cons, decode, hhigh, hlow, ih]
    show some (UInt8.ofNat (16 * (b.toNat / 16) + b.toNat % 16) :: bytes) = some (b :: bytes)
    rw [hvalue, UInt8.ofNat_toNat]

theorem encode_isNameChar {bytes : Bytes} : ∀ c ∈ encode bytes, Identifier.isNameChar c = true := by
  induction bytes with
  | nil => exact fun c hc => absurd hc List.not_mem_nil
  | cons b bytes ih =>
    have hb : b.toNat < 256 := b.toNat_lt
    rw [encode_cons]
    refine List.forall_mem_cons.2 ⟨(digit_spec (by omega)).2, List.forall_mem_cons.2 ⟨?_, ih⟩⟩
    exact (digit_spec (by omega)).2

theorem readBlob_blob (bytes : Bytes) : readBlob (blob bytes) = some bytes := decode_encode bytes

theorem blob_isNameChar {bytes : Bytes} : ∀ c ∈ blob bytes, Identifier.isNameChar c = true :=
  List.forall_mem_cons.2 ⟨rfl, List.forall_mem_cons.2 ⟨rfl, encode_isNameChar⟩⟩

end Hex

end Cql
