import Cql.Text.ByteScanner
import Cql.Proofs.ByteSlices
import Cql.Proofs.ScannedBrackets
import Mathlib.Tactic.ByContra

/-!
Scans over the bytes of a text. They end where the scans over its characters end, since no byte of a
longer character looks like a quote, a bracket or a letter; and so the text always has a place there.
-/

namespace Cql

open Text (byteSize byteSize_cons byteSize_append)

/-! ## Parts of a text -/

namespace Text

theorem spanFrom_append (test : Text → Char → Bool) (passed t : Text) :
    (spanFrom test passed t).1 ++ (spanFrom test passed t).2 = t := by
  induction t generalizing passed with
  | nil => rfl
  | cons c t ih =>
    rw [spanFrom]
    split
    · exact congrArg (c :: ·) (ih (c :: passed))
    · rfl

/-- A test that does not look back. -/
theorem spanFrom_eq (p : Char → Bool) (passed t : Text) :
    spanFrom (fun _ => p) passed t = spanWhile p t := by
  induction t generalizing passed with
  | nil => rfl
  | cons c t ih =>
    rw [spanFrom, spanWhile, List.takeWhile_cons, List.dropWhile_cons]
    cases p c with
    | true => rw [if_pos rfl, ih, if_pos rfl, if_pos rfl, spanWhile]
    | false => rfl

end Text

namespace ByteScanner

open Scanner (Depth)

theorem splitAt_append (front back : Text) :
    splitAt (byteSize front) (front ++ back) = .ok (front, back) := by
  rw [splitAt, Slice.splitAt?_append]

theorem passed_eq (test : Text → Char → Bool) (passed t : Text) :
    Slice.passed (fun passed c => if test passed c then some (c :: passed) else none) passed t =
      byteSize (Text.spanFrom test passed t).1 := by
  induction t generalizing passed with
  | nil => rfl
  | cons c t ih =>
    rw [Slice.passed, Text.spanFrom]
    cases test passed c with
    | true => rw [if_pos rfl, if_pos rfl, byteSize_cons, ← ih]
    | false => rfl

theorem takeWhile_eq (test : Text → Char → Bool) (s : Text) :
    takeWhile test s = .ok (Text.spanFrom test [] s) := by
  have hsplit := splitAt_append (Text.spanFrom test [] s).1 (Text.spanFrom test [] s).2
  rwa [Text.spanFrom_append, ← passed_eq] at hsplit

/-! ## The end of a value -/

theorem encode_cons (c : Char) (t : Text) :
    Utf8.encode (c :: t) = Utf8.encodeChar c ++ Utf8.encode t := List.flatMap_cons

/-- A character in ASCII is a byte by itself. -/
theorem encode_ascii {c : Char} (hc : c.toNat < 0x80) (t : Text) :
    Utf8.encode (c :: t) = UInt8.ofNat c.toNat :: Utf8.encode t := by
  rw [encode_cons, Utf8.encodeChar, if_pos hc]
  rfl

theorem lone_ascii {c : Char} (hc : c.toNat < 0x80) : lone (.ofNat c.toNat) = c := by
  rw [lone, Utf8.toNat_byte (by omega), Char.ofNat_toNat]

/-- The bytes of any other character are no ASCII. -/
theorem high_of_mem {c : Char} (hc : 0x80 ≤ c.toNat) : ∀ b ∈ Utf8.encodeChar c, 0x80 ≤ b.toNat := by
  intro b hb
  by_contra hlow
  have hvalue := Utf8.eq_of_mem_encodeChar (c := c) (n := b.toNat) (by omega)
    (by rwa [UInt8.ofNat_toNat])
  omega

/-- Characters that are no ASCII are no brackets and do not belong to names. -/
theorem not_ascii {c : Char} (hc : 0x80 ≤ c.toNat) (d : Depth) :
    d.open? c = none ∧ d.closes? c = none ∧ Identifier.isNameChar c = false := by
  have hne : ∀ mark : Char, mark.toNat < 0x80 → c ≠ mark := by
    rintro mark hmark rfl
    omega
  refine ⟨Scanner.open?_eq_none (by simp [Literal.isOpening, hne]) d,
    Scanner.closes?_eq_none (by simp [Literal.isClosing, hne]) d, ?_⟩
  rw [Bool.eq_false_iff]
  intro hname
  have hbounds := Identifier.isNameChar_bounds hname
  omega

theorem toNat_lone (b : UInt8) : (lone b).toNat = b.toNat := by
  have hvalid : b.toNat.isValidChar := .inl (Nat.lt_trans b.toNat_lt (by decide))
  rw [lone, Char.ofNat, dif_pos hvalid]
  rfl

theorem valueEnd?_outside (place : Nat) (d : Depth) {b : UInt8} (hb : b ≠ 0x27) (rest : Bytes) :
    valueEnd? place d false (b :: rest) =
      match d.open? (lone b) with
      | some d => valueEnd? (place + 1) d false rest
      | none =>
        match d.closes? (lone b) with
        | some 0 => some place
        | some (_ + 1) =>
          if (d.close (lone b)).isNone then some (place + 1)
          else valueEnd? (place + 1) (d.close (lone b)) false rest
        | none =>
          if d.isNone && !Identifier.isNameChar (lone b) then some place
          else valueEnd? (place + 1) d false rest := by
  rw [valueEnd?.eq_def]
  exact (if_neg Bool.false_ne_true).trans (if_neg hb)

/-- A byte that is no ASCII ends a value where no bracket is open. -/
theorem valueEnd?_high (place : Nat) (d : Depth) {b : UInt8} (hb : 0x80 ≤ b.toNat) (rest : Bytes) :
    valueEnd? place d false (b :: rest) =
      if d.isNone then some place else valueEnd? (place + 1) d false rest := by
  have hquote : b ≠ 0x27 := by
    rintro rfl
    exact absurd hb (by decide)
  obtain ⟨hopen, hcloses, hname⟩ := not_ascii (c := lone b) (by rwa [toNat_lone]) d
  rw [valueEnd?_outside place d hquote, hopen, hcloses, hname, Bool.not_false, Bool.and_true]

theorem valueEnd?_inBrackets {d : Depth} (hd : d.isNone = false) {bytes : Bytes}
    (hbytes : ∀ b ∈ bytes, 0x80 ≤ b.toNat) (place : Nat) (rest : Bytes) :
    valueEnd? place d false (bytes ++ rest) = valueEnd? (place + bytes.length) d false rest := by
  induction bytes generalizing place with
  | nil => rfl
  | cons b bytes ih =>
    obtain ⟨hb, hbytes⟩ := List.forall_mem_cons.1 hbytes
    rw [List.cons_append, valueEnd?_high place d hb, hd, if_neg Bool.false_ne_true, ih hbytes,
      List.length_cons, Nat.add_assoc, Nat.add_comm 1]

theorem valueEnd?_inside (place : Nat) (d : Depth) {b : UInt8} (hb : b ≠ 0x27) (rest : Bytes) :
    valueEnd? place d true (b :: rest) = valueEnd? (place + 1) d true rest := by
  rw [valueEnd?.eq_def]
  exact (if_pos rfl).trans (if_neg hb)

theorem valueEnd?_opens (place : Nat) (d : Depth) (t : Text) :
    valueEnd? place d false (Utf8.encode ('\x27' :: t)) =
      valueEnd? (place + 1) d true (Utf8.encode t) := by
  rw [encode_ascii (by decide), valueEnd?.eq_def]
  rfl

theorem valueEnd?_doubled (place : Nat) (d : Depth) (t : Text) :
    valueEnd? place d true (Utf8.encode ('\x27' :: '\x27' :: t)) =
      valueEnd? (place + 2) d true (Utf8.encode t) := by
  rw [encode_ascii (by decide), encode_ascii (by decide), valueEnd?.eq_def]
  rfl

theorem valueEnd?_last (place : Nat) (d : Depth) {t : Text} (ht : t.head? ≠ some '\x27') :
    valueEnd? place d true (Utf8.encode ('\x27' :: t)) =
      if d.isNone then some (place + 1) else valueEnd? (place + 1) d false (Utf8.encode t) := by
  rw [encode_ascii (by decide), valueEnd?.eq_def]
  cases t with
  | nil => cases hd : d.isNone <;> simp [Utf8.encode, valueEnd?, hd]
  | cons c t =>
    obtain ⟨b, rest, hmem, hencode⟩ := Slice.exists_encode_cons c t
    have hc : c ≠ '\x27' := fun h => ht (by rw [h]; rfl)
    have hb : b ≠ 0x27 := Slice.mark_not_mem '\x27' (by decide) hc b hmem
    rw [hencode]
    exact if_neg hb

/-- In a string, every character but a quote is passed over. -/
theorem valueEnd?_string (place : Nat) (d : Depth) {c : Char} (hc : c ≠ '\x27') (t : Text) :
    valueEnd? place d true (Utf8.encode (c :: t)) =
      valueEnd? (place + c.utf8Size) d true (Utf8.encode t) := by
  have hpasses : ∀ bytes : Bytes, (∀ b ∈ bytes, b ≠ 0x27) → ∀ place,
      valueEnd? place d true (bytes ++ Utf8.encode t) =
        valueEnd? (place + bytes.length) d true (Utf8.encode t) := by
    intro bytes
    induction bytes with
    | nil => exact fun _ _ => rfl
    | cons b bytes ih =>
      intro hbytes place
      obtain ⟨hb, hbytes⟩ := List.forall_mem_cons.1 hbytes
      rw [List.cons_append, valueEnd?_inside place d hb, ih hbytes, List.length_cons, Nat.add_assoc,
        Nat.add_comm 1]
  rw [encode_cons, hpasses _ (Slice.mark_not_mem '\x27' (by decide) hc),
    Utf8.length_encodeChar]

/-- A character outside of strings that is no quote. -/
theorem valueEnd?_step (place : Nat) (d : Depth) {c : Char} (hc : c ≠ '\x27') (t : Text) :
    valueEnd? place d false (Utf8.encode (c :: t)) =
      match d.open? c with
      | some d => valueEnd? (place + c.utf8Size) d false (Utf8.encode t)
      | none =>
        match d.closes? c with
        | some 0 => some place
        | some (_ + 1) =>
          if (d.close c).isNone then some (place + c.utf8Size)
          else valueEnd? (place + c.utf8Size) (d.close c) false (Utf8.encode t)
        | none =>
          if d.isNone && !Identifier.isNameChar c then some place
          else valueEnd? (place + c.utf8Size) d false (Utf8.encode t) := by
  by_cases hascii : c.toNat < 0x80
  · have hb : UInt8.ofNat c.toNat ≠ 0x27 := fun h => hc (by rw [← lone_ascii hascii, h]; rfl)
    have hsize : c.utf8Size = 1 := by rw [Utf8.utf8Size_eq, if_pos hascii]
    rw [encode_ascii hascii, valueEnd?_outside place d hb, lone_ascii hascii, hsize]
  · rw [Nat.not_lt] at hascii
    obtain ⟨hopen, hcloses, hname⟩ := not_ascii hascii d
    rw [hopen, hcloses, hname]
    cases hd : d.isNone with
    | true =>
      obtain ⟨b, rest, hmem, hencode⟩ := Slice.exists_encode_cons c t
      rw [hencode, valueEnd?_high place d (high_of_mem hascii b hmem), hd]
      rfl
    | false =>
      rw [encode_cons, valueEnd?_inBrackets hd (high_of_mem hascii), Utf8.length_encodeChar]
      rfl

theorem place_cons (place : Nat) (c : Char) (t : Text) :
    place + byteSize (c :: t) = place + c.utf8Size + byteSize t := by
  rw [byteSize_cons, Nat.add_assoc]

theorem place_behind (place : Nat) (c : Char) (t : Text) :
    place + byteSize (c :: t) - byteSize t = place + c.utf8Size := by
  rw [place_cons, Nat.add_sub_cancel]

/-- A scan over the bytes ends at the place where a scan over the characters ends. -/
theorem valueEnd?_eq (place : Nat) (d : Depth) (inString : Bool) (t : Text) :
    valueEnd? place d inString (Utf8.encode t) =
      (Scanner.afterValue d inString t).map fun rest => place + byteSize t - byteSize rest := by
  have hquote : ('\x27').utf8Size = 1 := rfl
  fun_induction Scanner.afterValue d inString t generalizing place with
  | case1 d inString hopen =>
    rw [Utf8.encode, List.flatMap_nil, valueEnd?, if_pos hopen]
    rfl
  | case2 d inString hopen =>
    rw [Utf8.encode, List.flatMap_nil, valueEnd?, if_neg hopen]
    rfl
  | case3 d hnone =>
    rw [valueEnd?_last place d (by simp), if_pos hnone]
    rfl
  | case4 d hopen =>
    have hd : d.isNone = false := Bool.eq_false_iff.2 hopen
    rw [valueEnd?_last place d (by simp), if_neg hopen, Utf8.encode, List.flatMap_nil, valueEnd?, hd]
    rfl
  | case5 d s ih =>
    rw [valueEnd?_doubled, ih, place_cons, place_cons, hquote]
  | case6 d next s hnext hnone =>
    have hhead : (next :: s).head? ≠ some '\x27' := by simpa using hnext
    rw [valueEnd?_last place d hhead, if_pos hnone, Option.map_some, place_behind, hquote]
  | case7 d next s hnext hopen ih =>
    have hhead : (next :: s).head? ≠ some '\x27' := by simpa using hnext
    rw [valueEnd?_last place d hhead, if_neg hopen, ih, place_cons place '\x27', hquote]
  | case8 d c s hc ih => rw [valueEnd?_string place d hc, ih, place_cons]
  | case9 d inString s hout ih =>
    cases Bool.eq_false_iff.2 hout
    rw [valueEnd?_opens, ih, place_cons, hquote]
  | case10 d inString c s hout hc e hopen ih =>
    cases Bool.eq_false_iff.2 hout
    rw [valueEnd?_step place d hc, hopen, place_cons]
    exact ih _
  | case11 d inString c s hout hc hopen hcloses =>
    cases Bool.eq_false_iff.2 hout
    rw [valueEnd?_step place d hc, hopen, hcloses, Option.map_some, Nat.add_sub_cancel]
  | case12 d inString c s hout hc hopen k hcloses hnone =>
    cases Bool.eq_false_iff.2 hout
    rw [valueEnd?_step place d hc, hopen, hcloses, Option.map_some, place_behind]
    exact if_pos hnone
  | case13 d inString c s hout hc hopen k hcloses hnone ih =>
    cases Bool.eq_false_iff.2 hout
    rw [valueEnd?_step place d hc, hopen, hcloses, place_cons]
    exact (if_neg hnone).trans (ih _)
  | case14 d inString c s hout hc hopen hcloses hend =>
    cases Bool.eq_false_iff.2 hout
    rw [valueEnd?_step place d hc, hopen, hcloses, Option.map_some, Nat.add_sub_cancel]
    exact if_pos hend
  | case15 d inString c s hout hc hopen hcloses hend ih =>
    cases Bool.eq_false_iff.2 hout
    rw [valueEnd?_step place d hc, hopen, hcloses, place_cons]
    exact (if_neg hend).trans (ih _)

/-! ## Whole scans -/

/-- A failure of a scan over characters, with the number of bytes that were left. -/
def Halt.of (f : Scanner.Fault) : Halt := .fault (byteSize f.remaining) f.cause

theorem byteSize_eq_zero {t : Text} (h : byteSize t = 0) : t = [] := by
  cases t with
  | nil => rfl
  | cons c t =>
    have hpos := c.utf8Size_pos
    rw [byteSize_cons] at h
    omega

theorem skipValue_eq (s : Text) : skipValue s = (Scanner.skipValue s).mapError Halt.of := by
  cases s with
  | nil => rfl
  | cons c t =>
    rw [skipValue, Scanner.skipValue]
    split
    · rfl
    · rw [valueEnd?_eq]
      cases hscan : Scanner.afterValue .none false (c :: t) with
      | none => rfl
      | some rest =>
        obtain ⟨value, hvalue, -⟩ := Scanner.afterValue_takes hscan
        have hplace : 0 + byteSize (c :: t) - byteSize rest = byteSize value := by
          rw [hvalue, byteSize_append, Nat.zero_add, Nat.add_sub_cancel]
        rw [Option.map_some, hplace, hvalue]
        have hsplit := splitAt_append value rest
        cases hsize : byteSize value with
        | zero =>
          cases byteSize_eq_zero hsize
          dsimp only
          rw [if_pos (List.nil_append rest ▸ rfl)]
          rfl
        | succ n =>
          have hne : rest.length ≠ (value ++ rest).length := by
            cases value with
            | nil => cases hsize
            | cons => simp; omega
          dsimp only
          rw [if_neg hne, Scanner.consumed_append]
          show splitAt (n + 1) (value ++ rest) = .ok (value, rest)
          rw [← hsize, hsplit]

theorem skipIdentifier_eq (s : Text) :
    skipIdentifier s = (Scanner.skipIdentifier s).mapError Halt.of := by
  by_cases hquote : s.head? = some '"'
  · obtain ⟨inner, rfl⟩ := List.head?_eq_some_iff.1 hquote
    rw [skipIdentifier, Slice.endingQuote?_eq]
    cases hname : Scanner.afterQuotedName inner with
    | none =>
      rw [Scanner.skipIdentifier, hname]
      rfl
    | some rest =>
      obtain ⟨name, rfl, hrest⟩ := Scanner.afterQuotedName_eq_some hname
      have hplace : 0 + byteSize (Identifier.double name ++ '"' :: rest) - byteSize rest - 1 + 2 =
          byteSize (Identifier.quoted name) := by
        have hone : ('"').utf8Size = 1 := rfl
        rw [Slice.byteSize_quoted, byteSize_append, byteSize_cons, byteSize_cons, hone]
        omega
      have hwhole : '"' :: (Identifier.double name ++ '"' :: rest) = Identifier.quoted name ++ rest := by
        rw [Identifier.quoted, List.cons_append, List.cons_append, List.append_assoc]
        rfl
      rw [Option.map_some, hwhole, Scanner.skipIdentifier_quoted name hrest]
      dsimp only
      rw [hplace, splitAt_append]
      rfl
  · have hother : ∀ inner, s = '"' :: inner → False := by
      rintro inner rfl
      exact hquote rfl
    rw [skipIdentifier.eq_2 s hother, Scanner.skipIdentifier.eq_2 s hother, takeWhile_eq, Text.spanFrom_eq]
    simp only [bind, Except.bind]
    split <;> rfl

theorem accept_eq (part s : Text) : accept part s =
    ((Scanner.accept part s).map fun rest => (part, rest)).mapError Halt.of := by
  rw [accept, Scanner.accept]
  split
  · next hprefix =>
    obtain ⟨rest, rfl⟩ := List.isPrefixOf_iff_prefix.1 hprefix
    rw [splitAt_append, List.drop_left]
    rfl
  · rfl

/-- A move over the bytes takes what the move over the characters takes, and never breaks down. -/
theorem take_eq (m : Cursor.Move) (s : Text) : take m s = (m.take s).mapError Halt.of := by
  cases m with
  | accept part => exact accept_eq part s
  | skipBlanks =>
    rw [take, takeWhile_eq, Text.spanFrom_eq]
    rfl
  | takeWhile test =>
    rw [take, takeWhile_eq]
    rfl
  | skipValue => exact skipValue_eq s
  | skipIdentifier => exact skipIdentifier_eq s

end ByteScanner

end Cql
