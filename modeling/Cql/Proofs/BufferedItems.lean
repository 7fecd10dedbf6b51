import Cql.Proofs.Sequences
import Cql.Proofs.Wire
import Cql.Wire.Buffer

/-!
Items in a buffer. Every writer knows that a length fits before it puts anything, so that it puts all of
an item or nothing; the fields of the items that were written then give them back, one after the other.
-/

namespace Cql.Wire

/-! ## One writer -/

/-- The work puts these bytes and nothing else, or fails with the buffer as it was. -/
def Writer.Puts (w : Writer) (written : Except Fault Bytes) : Prop :=
  ∀ buffer, w.apply buffer =
    match written with
    | .ok bytes => (.ok (), buffer ++ bytes)
    | .error fault => (.error fault, buffer)

namespace Writer

theorem put_puts (bytes : Bytes) : (put bytes).Puts (.ok bytes) := fun _ => rfl

/-- Behind a length no check is left that could fail. -/
theorem Puts.behind {w : Writer} {written : Except Fault Bytes} (h : w.Puts written) (value : Bytes) :
    Puts (do w; put value) (written.map (· ++ value)) := by
  intro buffer
  have hrun : apply (do w; put value) buffer =
      match w.apply buffer with
      | (.ok (), buffer) => (.ok (), buffer ++ value)
      | (.error fault, buffer) => (.error fault, buffer) := by
    show StateT.run (ExceptT.run (do w; put value)) buffer = _
    rw [ExceptT.run_bind, StateT.run_bind, apply]
    generalize StateT.run (ExceptT.run w) buffer = found
    rcases found with ⟨_ | _, _⟩ <;> rfl
  rw [hrun, h]
  cases written with
  | error fault => rfl
  | ok bytes =>
    dsimp only [map_ok]
    rw [List.append_assoc]

/-- A length that fits is the same as a number with a sign. -/
theorem writeInt_ofNat {n : Nat} (h : n < 2 ^ 31) : writeInt (Int32.ofNat n) = BigEndian.ofNat 4 n := by
  rw [writeInt, Int32.toInt_ofNat_of_lt h, BigEndian.ofInt, Int.emod_eq_of_lt (by omega) (by omega),
    Int.toNat_natCast]

theorem intLength_puts (n : Nat) : (intLength n).Puts (writeIntLength n) := by
  rw [intLength, writeIntLength]
  split
  · next h =>
    rw [← writeInt_ofNat h]
    exact put_puts _
  · exact fun _ => rfl

theorem shortLength_puts (n : Nat) : (shortLength n).Puts (writeShortLength n) := by
  rw [shortLength, writeShortLength]
  split
  · next h =>
    have hsame : writeShort (UInt16.ofNat n) = BigEndian.ofNat 2 n := by
      rw [writeShort, UInt16.toNat_ofNat_of_lt' h]
    rw [← hsame]
    exact put_puts _
  · exact fun _ => rfl

theorem bytes_puts (value : Bytes) : (bytes value).Puts (writeBytes value) :=
  (intLength_puts value.length).behind value

theorem shortBytes_puts (value : Bytes) : (shortBytes value).Puts (writeShortBytes value) :=
  (shortLength_puts value.length).behind value

end Writer

/-- What is written into a buffer is what is written at all. -/
theorem Item.write_puts (item : Item) : item.write.Puts item.encode := by
  cases item with
  | int value => exact Writer.put_puts _
  | short value => exact Writer.put_puts _
  | length value => exact Writer.intLength_puts value
  | bytes value => exact Writer.bytes_puts value
  | optional value =>
    cases value with
    | none => exact Writer.put_puts _
    | some value => exact Writer.bytes_puts value
  | shortBytes value => exact Writer.shortBytes_puts value
  | size version count =>
    show (Writer.size version count).Puts (writeSize version count)
    rw [Writer.size, writeSize]
    split
    · exact Writer.intLength_puts count
    · exact Writer.shortLength_puts count
  | element version value =>
    show (Writer.element version value).Puts (writeElement version value)
    rw [Writer.element, writeElement]
    split
    · exact Writer.bytes_puts value
    · exact Writer.shortBytes_puts value

/-! ## What fits -/

/-- Something is written exactly if it fits. -/
def Fitting (written : Except Fault Bytes) (fits : Bool) : Prop :=
  fits = true ∧ (∃ bytes, written = .ok bytes) ∨ fits = false ∧ written = .error .tooLarge

namespace Fitting

theorem ok (bytes : Bytes) : Fitting (.ok bytes) true := .inl ⟨rfl, bytes, rfl⟩

theorem ite (n bound : Nat) (bytes : Bytes) :
    Fitting (if n < bound then .ok bytes else .error .tooLarge) (n < bound) := by
  by_cases h : n < bound
  · exact .inl ⟨decide_eq_true h, bytes, if_pos h⟩
  · exact .inr ⟨decide_eq_false h, if_neg h⟩

theorem behind {written : Except Fault Bytes} {fits : Bool} (h : Fitting written fits) (value : Bytes) :
    Fitting (written.map (· ++ value)) fits := by
  rcases h with ⟨hfits, bytes, rfl⟩ | ⟨hfits, rfl⟩
  · exact .inl ⟨hfits, bytes ++ value, rfl⟩
  · exact .inr ⟨hfits, rfl⟩

theorem wide_or_narrow {wide narrow : Except Fault Bytes} {n : Nat} (hwide : Fitting wide (n < 2 ^ 31))
    (hnarrow : Fitting narrow (n < 2 ^ 16)) (isWide : Bool) :
    Fitting (if isWide then wide else narrow) (n < if isWide then 2 ^ 31 else 2 ^ 16) := by
  cases isWide with
  | true => exact hwide
  | false => exact hnarrow

end Fitting

namespace Item

/-- Whether the word in front of an item, if there is one, has room for its length. -/
def fits : Item → Bool
  | int _ | short _ | optional none => true
  | length n => n < 2 ^ 31
  | bytes value | optional (some value) => value.length < 2 ^ 31
  | shortBytes value => value.length < 2 ^ 16
  | size version count => count < if version.hasWideSizes then 2 ^ 31 else 2 ^ 16
  | element version value => value.length < if version.hasWideSizes then 2 ^ 31 else 2 ^ 16

theorem encode_fitting (item : Item) : Fitting item.encode item.fits := by
  have hwide : ∀ value : Bytes, Fitting (writeBytes value) (value.length < 2 ^ 31) := fun value =>
    (Fitting.ite value.length _ _).behind value
  have hnarrow : ∀ value : Bytes, Fitting (writeShortBytes value) (value.length < 2 ^ 16) := fun value =>
    (Fitting.ite value.length _ _).behind value
  cases item with
  | int value => exact .ok _
  | short value => exact .ok _
  | length n => exact .ite n _ _
  | bytes value => exact hwide value
  | optional value =>
    cases value with
    | none => exact .ok _
    | some value => exact hwide value
  | shortBytes value => exact hnarrow value
  | size version count => exact .wide_or_narrow (.ite count _ _) (.ite count _ _) version.hasWideSizes
  | element version value => exact .wide_or_narrow (hwide value) (hnarrow value) version.hasWideSizes

/-- The field of an item gives it back. -/
theorem read_encode {item : Item} {bytes : Bytes} (h : item.encode = .ok bytes) (rest : Bytes) :
    item.field.read (bytes ++ rest) = .ok (item.reading, rest) := by
  cases item with
  | int value =>
    cases h
    rw [field, Field.read, readInt_writeInt, map_ok, reading]
  | short value =>
    cases h
    rw [field, Field.read, readShort_writeShort, map_ok, reading]
  | length value => exact congrArg (Except.map _) (readIntLength_write h rest)
  | bytes value => exact congrArg (Except.map _) (readBytes_write h rest)
  | optional value => exact congrArg (Except.map _) (readOptional_write h rest)
  | shortBytes value => exact congrArg (Except.map _) (readShortBytes_write h rest)
  | size version count => exact congrArg (Except.map _) (readSize_write h rest)
  | element version value => exact congrArg (Except.map _) (readElement_write h rest)

/-- Of the items that a field can hold, what it is found to hold tells which it is. -/
theorem eq_of_reading {item other : Item} (hfield : item.field = other.field)
    (hreading : item.reading = other.reading) : item = other := by
  cases item <;> cases other <;> cases hfield <;> cases hreading <;> rfl

/-- An item is added as a whole, or the buffer stays as it is. -/
theorem write_cases (item : Item) (buffer : Bytes) :
    item.fits = true ∧ (∃ bytes, item.encode = .ok bytes ∧
      item.write.apply buffer = (.ok (), buffer ++ bytes)) ∨
    item.fits = false ∧ item.encode = .error .tooLarge ∧
      item.write.apply buffer = (.error .tooLarge, buffer) := by
  have hput := item.write_puts buffer
  rcases item.encode_fitting with ⟨hfits, bytes, hencode⟩ | ⟨hfits, hencode⟩
  · rw [hencode] at hput
    exact .inl ⟨hfits, bytes, hencode, hput⟩
  · rw [hencode] at hput
    exact .inr ⟨hfits, hencode, hput⟩

/-- Items that are written one behind the other: those that fit are added, and their fields read them. -/
theorem writeAll_eq (items : List Item) (buffer : Bytes) : ∃ added,
    writeAll items buffer =
      (items.map fun item => if item.fits then .ok () else .error .tooLarge, buffer ++ added) ∧
    items.foldl append buffer = buffer ++ added ∧
    ∀ rest, Field.readAll ((items.filter fits).map field) (added ++ rest) =
      .ok ((items.filter fits).map reading, rest) := by
  induction items generalizing buffer with
  | nil => exact ⟨[], by rw [List.append_nil]; rfl, (List.append_nil buffer).symm, fun _ => rfl⟩
  | cons item items ih =>
    rw [writeAll, List.foldl_cons, append, List.map_cons, List.filter_cons]
    rcases item.write_cases buffer with ⟨hfits, bytes, hencode, hput⟩ | ⟨hfits, hencode, hput⟩
    · obtain ⟨added, hwrite, hfold, hread⟩ := ih (buffer ++ bytes)
      refine ⟨bytes ++ added, ?_, ?_, fun rest => ?_⟩
      · rw [hput, hfits, if_pos rfl, ← List.append_assoc]
        dsimp only
        rw [hwrite]
      · rw [hencode, ← List.append_assoc, ← hfold]
      · rw [hfits, if_pos rfl, List.map_cons, Field.readAll, List.append_assoc, read_encode hencode,
          ok_bind]
        dsimp only
        rw [hread, ok_bind, List.map_cons]
    · obtain ⟨added, hwrite, hfold, hread⟩ := ih buffer
      refine ⟨added, ?_, ?_, ?_⟩
      · rw [hput, hfits, if_neg Bool.false_ne_true]
        dsimp only
        rw [hwrite]
      · rw [hencode, ← hfold]
      · rw [hfits, if_neg Bool.false_ne_true]
        exact hread

/-- Whatever a buffer holds and whatever is written to it: an item that fits is added behind what is
there, one that does not fit leaves the buffer as it is; and of what a sequence of items has added, the
fields of those that fit read these items, an absent value apart from an empty one, and leave what
stands behind. -/
theorem written_reads_back :
    (∀ (item : Item) (buffer : Bytes),
      item.fits = true ∧ (∃ bytes, item.encode = .ok bytes ∧
        item.write.apply buffer = (.ok (), buffer ++ bytes)) ∨
      item.fits = false ∧ item.encode = .error .tooLarge ∧
        item.write.apply buffer = (.error .tooLarge, buffer)) ∧
    (∀ item other : Item, item.field = other.field → item.reading = other.reading → item = other) ∧
    ∀ (items : List Item) (buffer : Bytes), ∃ added,
      writeAll items buffer =
        (items.map fun item => if item.fits then .ok () else .error .tooLarge, buffer ++ added) ∧
      items.foldl append buffer = buffer ++ added ∧
      ∀ rest, Field.readAll ((items.filter fits).map field) (added ++ rest) =
        .ok ((items.filter fits).map reading, rest) :=
  ⟨write_cases, fun _ _ => eq_of_reading, writeAll_eq⟩

/-- A count without room, an absent value and an empty one. -/
example : writeAll [.size .v1 70000, .optional none, .bytes []] [7] =
    ([.error .tooLarge, .ok (), .ok ()], [7, 255, 255, 255, 255, 0, 0, 0, 0]) := by
  rfl

end Item

end Cql.Wire
