import Cql.Text.Slice
import Cql.Type.Fragment
import Cql.Proofs.Names
import Cql.Proofs.Utf8

/-!
What is taken out of a text in bytes. A text can be taken apart behind every number of its characters;
the places that a scan over characters or over bytes stops at are of that kind, because no byte of a
character of more than one byte looks like a character of its own.
-/

namespace Cql

/-! ## Sizes -/

namespace Text

theorem byteSize_cons (c : Char) (t : Text) : byteSize (c :: t) = c.utf8Size + byteSize t := by
  have hsum : ∀ (t : Text) (n : Nat), t.foldl (fun n c => n + c.utf8Size) n = n + byteSize t := by
    intro t
    induction t with
    | nil => exact fun n => rfl
    | cons d t ih =>
      intro n
      have hone : byteSize (d :: t) = 0 + d.utf8Size + byteSize t := ih _
      rw [List.foldl_cons, ih, hone, Nat.zero_add, Nat.add_assoc]
  calc byteSize (c :: t) = 0 + c.utf8Size + byteSize t := hsum t _
    _ = c.utf8Size + byteSize t := by rw [Nat.zero_add]

theorem byteSize_append (s t : Text) : byteSize (s ++ t) = byteSize s + byteSize t := by
  induction s with
  | nil => exact (Nat.zero_add _).symm
  | cons c s ih => rw [List.cons_append, byteSize_cons, byteSize_cons, ih, Nat.add_assoc]

theorem byteSize_pos {t : Text} (h : t ≠ []) : 0 < byteSize t := by
  obtain ⟨c, t, rfl⟩ := List.exists_cons_of_ne_nil h
  rw [byteSize_cons]
  exact Nat.add_pos_left c.utf8Size_pos _

theorem byteSize_singleton (c : Char) : byteSize [c] = c.utf8Size := Nat.zero_add _

end Text

open Text (byteSize byteSize_cons byteSize_append)

namespace Slice

theorem splitAt?_append (front back : Text) :
    splitAt? (byteSize front) (front ++ back) = some (front, back) := by
  induction front with
  | nil => cases back <;> rfl
  | cons c front ih =>
    have hpos := c.utf8Size_pos
    obtain ⟨n, hn⟩ : ∃ n, byteSize (c :: front) = n + 1 :=
      ⟨byteSize (c :: front) - 1, by rw [byteSize_cons]; omega⟩
    have hle : ¬ n + 1 < c.utf8Size := by
      rw [← hn, byteSize_cons]
      omega
    have hrest : n + 1 - c.utf8Size = byteSize front := by
      rw [← hn, byteSize_cons]
      omega
    rw [hn, List.cons_append, splitAt?, if_neg hle, hrest, ih]
    rfl

/-! ## Characters that pass a test -/

theorem passed_eq (test : Char → Bool) (t : Text) :
    passed (fun () c => if test c then some () else none) () t = byteSize (t.takeWhile test) := by
  induction t with
  | nil => rfl
  | cons c t ih =>
    rw [passed, List.takeWhile_cons]
    cases test c with
    | true => rw [if_pos rfl, if_pos rfl, byteSize_cons, ← ih]
    | false => rfl

theorem span?_eq (test : Char → Bool) (t : Text) : span? test t = some (Text.spanWhile test t) := by
  have hsplit := splitAt?_append (t.takeWhile test) (t.dropWhile test)
  rw [List.takeWhile_append_dropWhile] at hsplit
  rw [span?, passed_eq, hsplit]
  rfl

theorem trimStart?_eq (t : Text) : trimStart? t = some (Text.trimStart t) := by
  rw [trimStart?, span?_eq]
  rfl

theorem consumed?_eq {start rest : Text} (h : rest <:+ start) :
    consumed? start rest = some (Scanner.consumed start rest) := by
  obtain ⟨front, rfl⟩ := h
  have hsize : byteSize (front ++ rest) - byteSize rest = byteSize front := by
    rw [byteSize_append, Nat.add_sub_cancel]
  rw [consumed?, hsize, splitAt?_append, Scanner.consumed_append]
  rfl

/-! ## The end of a quoted name -/

theorem byteSize_quoted (name : Text) :
    byteSize (Identifier.quoted name) = byteSize ('"' :: Identifier.double name) + 1 := by
  rw [Identifier.quoted, byteSize_append]
  rfl

theorem splitAt?_opening (name : Text) :
    splitAt? 1 ('"' :: name) = some (['"'], name) :=
  splitAt?_append ['"'] name

theorem splitAt?_closing (name : Text) :
    splitAt? (byteSize (Identifier.quoted name) - 1) (Identifier.quoted name) =
      some ('"' :: Identifier.double name, ['"']) := by
  rw [byteSize_quoted, Nat.add_sub_cancel]
  exact splitAt?_append _ ['"']

/-- Bytes other than the double quote are passed. -/
theorem endingQuote?_append {bytes : Bytes} (h : ∀ b ∈ bytes, b ≠ 0x22) (place : Nat) (rest : Bytes) :
    endingQuote? place (bytes ++ rest) = endingQuote? (place + bytes.length) rest := by
  induction bytes generalizing place with
  | nil => rfl
  | cons b bytes ih =>
    obtain ⟨hb, hbytes⟩ := List.forall_mem_cons.1 h
    rw [List.cons_append, endingQuote?.eq_def]
    dsimp only
    rw [if_neg hb, ih hbytes, List.length_cons, Nat.add_assoc, Nat.add_comm 1]

end Slice

namespace Utf8

theorem utf8Size_eq (c : Char) : c.utf8Size =
    if c.toNat < 0x80 then 1 else if c.toNat < 0x800 then 2 else if c.toNat < 0x10000 then 3 else 4 := by
  have hle : ∀ n : UInt32, c.val ≤ n ↔ c.toNat < n.toNat + 1 := fun n =>
    UInt32.le_iff_toNat_le.trans Nat.lt_succ_iff.symm
  simp only [Char.utf8Size, hle]
  rfl

theorem length_encodeChar (c : Char) : (encodeChar c).length = c.utf8Size := by
  rw [utf8Size_eq]
  unfold encodeChar
  dsimp only
  split
  · rfl
  · split
    · rfl
    · split <;> rfl

/-- A byte that could be a character of its own is no part of another one. -/
theorem eq_of_mem_encodeChar {c : Char} {n : Nat} (hn : n < 0x80) (h : UInt8.ofNat n ∈ encodeChar c) :
    c.toNat = n := by
  have hlt : c.toNat < 0x110000 := by
    have hvalid : c.toNat < 0xD800 ∨ 0xDFFF < c.toNat ∧ c.toNat < 0x110000 := c.valid
    omega
  have hbyte : ∀ m < 256, UInt8.ofNat n = UInt8.ofNat m → m = n := by
    intro m hm heq
    have hnat := congrArg UInt8.toNat heq
    rw [toNat_byte hm, toNat_byte (by omega)] at hnat
    exact hnat.symm
  unfold encodeChar at h
  dsimp only at h
  split at h
  · exact hbyte _ (by omega) (List.mem_singleton.1 h)
  · exfalso
    split at h
    · simp only [List.mem_cons, List.not_mem_nil, or_false] at h
      rcases h with h | h
      all_goals have := hbyte _ (by omega) h; omega
    · split at h
      · simp only [List.mem_cons, List.not_mem_nil, or_false] at h
        rcases h with h | h | h
        all_goals have := hbyte _ (by omega) h; omega
      · simp only [List.mem_cons, List.not_mem_nil, or_false] at h
        rcases h with h | h | h | h
        all_goals have := hbyte _ (by omega) h; omega

end Utf8

namespace Slice

/-- A mark in ASCII is no byte of another character. -/
theorem mark_not_mem (mark : Char) {c : Char} (hmark : mark.toNat < 0x80) (hc : c ≠ mark) :
    ∀ b ∈ Utf8.encodeChar c, b ≠ UInt8.ofNat mark.toNat := by
  rintro b hb rfl
  exact hc (Char.toNat_inj.1 (Utf8.eq_of_mem_encodeChar hmark hb))

/-- The first byte of a character. -/
theorem exists_encode_cons (c : Char) (t : Text) :
    ∃ b rest, b ∈ Utf8.encodeChar c ∧ Utf8.encode (c :: t) = b :: rest := by
  have hpos := c.utf8Size_pos
  rw [← Utf8.length_encodeChar] at hpos
  obtain ⟨b, bytes, hbytes⟩ := List.exists_cons_of_length_pos hpos
  refine ⟨b, bytes ++ Utf8.encode t, hbytes ▸ List.mem_cons_self, ?_⟩
  rw [Utf8.encode, List.flatMap_cons, hbytes]
  rfl

theorem endingQuote?_cons {c : Char} (hc : c ≠ '"') (place : Nat) (t : Text) :
    endingQuote? place (Utf8.encode (c :: t)) = endingQuote? (place + c.utf8Size) (Utf8.encode t) := by
  rw [Utf8.encode, List.flatMap_cons, endingQuote?_append (mark_not_mem '"' (by decide) hc), Utf8.length_encodeChar,
    Utf8.encode]

theorem endingQuote?_stop {t : Text} (ht : t.head? ≠ some '"') (place : Nat) :
    endingQuote? place (Utf8.encode ('"' :: t)) = some place := by
  cases t with
  | nil => rfl
  | cons c t =>
    have hc : c ≠ '"' := fun heq => ht (by rw [heq, List.head?_cons])
    obtain ⟨b, rest, hmem, hencode⟩ := exists_encode_cons c t
    have hb : b ≠ 0x22 := mark_not_mem '"' (by decide) hc b hmem
    have hquote : Utf8.encode ('"' :: c :: t) = 0x22 :: b :: rest := by
      show 0x22 :: Utf8.encode (c :: t) = _
      rw [hencode]
    rw [hquote, endingQuote?, if_pos rfl]
    exact if_neg hb

/-- A scan over the bytes finds the double quote that a scan over the characters finds. -/
theorem endingQuote?_eq (place : Nat) (t : Text) :
    endingQuote? place (Utf8.encode t) =
      (Scanner.afterQuotedName t).map fun rest => place + byteSize t - byteSize rest - 1 := by
  fun_induction Scanner.afterQuotedName t generalizing place with
  | case1 => rfl
  | case2 rest ih =>
    have hstep : endingQuote? place (Utf8.encode ('"' :: '"' :: rest)) =
        endingQuote? (place + 2) (Utf8.encode rest) := rfl
    rw [hstep, ih, byteSize_cons, byteSize_cons]
    have hsize : ('"').utf8Size = 1 := rfl
    simp only [hsize, ← Nat.add_assoc]
  | case3 rest hnext =>
    have hhead : rest.head? ≠ some '"' := fun h => by
      obtain ⟨more, rfl⟩ := List.head?_eq_some_iff.1 h
      exact hnext more rfl
    have hsize : ('"').utf8Size = 1 := rfl
    rw [endingQuote?_stop hhead, Option.map_some, byteSize_cons, hsize]
    congr 1
    omega
  | case4 c rest hdouble hquote ih =>
    rw [endingQuote?_cons hquote, ih, byteSize_cons]
    simp only [Nat.add_assoc]

end Slice

end Cql
