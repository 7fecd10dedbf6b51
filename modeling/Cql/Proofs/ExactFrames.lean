import Cql.Proofs.WireRoundTrip
import Mathlib.Data.List.Induction

/-!
The frames of a collection are exact: bytes are taken apart into elements only if they are what the writers
make of these elements, byte for byte. Every reader is the converse of its writer, and a length that it
accepts was written with the same length.
-/

namespace Cql

/-! ## Numbers -/

namespace BigEndian

/-- In its own width a number has one form only. -/
theorem ofNat_toNat (bytes : Bytes) : ofNat bytes.length (toNat bytes) = bytes := by
  induction bytes using List.reverseRecOn with
  | nil => rfl
  | append_singleton bytes b ih =>
    have hb := b.toNat_lt
    have hhigh : (toNat bytes * 256 + b.toNat) / 256 = toNat bytes := by omega
    have hlow : (toNat bytes * 256 + b.toNat) % 256 = b.toNat := by omega
    rw [toNat_append_singleton, List.length_append, List.length_singleton, ofNat, hhigh, hlow, ih,
      UInt8.ofNat_toNat]

/-- Numbers without a sign are the same in both readings. -/
theorem toInt_nonneg {bytes : Bytes} (h : 0 ≤ toInt bytes) :
    toInt bytes = toNat bytes ∧ 2 * toNat bytes < 256 ^ bytes.length := by
  have hlt := toNat_lt bytes
  simp only [toInt] at h ⊢
  split at h
  · next hsmall => exact ⟨if_pos hsmall, hsmall⟩
  · omega

end BigEndian

/-! ## Readers and writers -/

namespace Wire

variable {bytes rest : Bytes}

theorem split?_exact {count : Nat} {first : Bytes} (h : split? count bytes = some (first, rest)) :
    bytes = first ++ rest ∧ first.length = count := by
  simp only [split?] at h
  split at h
  · cases h
  · next hlength =>
    cases h
    have hle := List.length_take_le count bytes
    exact ⟨(List.take_append_drop count bytes).symm, by omega⟩

theorem readRaw_exact {count : Nat} {first : Bytes} (h : readRaw count bytes = .ok (first, rest)) :
    bytes = first ++ rest ∧ first.length = count := by
  rw [readRaw] at h
  split at h
  · cases h
  · next hsplit =>
    cases h
    exact split?_exact hsplit

theorem readInt_exact {i : Int32} (h : readInt bytes = .ok (i, rest)) :
    ∃ word, word.length = 4 ∧ bytes = word ++ rest ∧ i.toInt = BigEndian.toInt word := by
  rw [readInt] at h
  split at h
  · cases h
  · next word _ hsplit =>
    cases h
    obtain ⟨hbytes, hlength⟩ := split?_exact hsplit
    have hbounds := BigEndian.toInt_bounds word
    rw [hlength] at hbounds
    exact ⟨word, hlength, hbytes, Int32.toInt_ofInt_of_le (by omega) (by omega)⟩

/-- A length that is not negative has one form. -/
theorem readInt_length {i : Int32} (h : readInt bytes = .ok (i, rest)) (hi : ¬ i < 0) :
    writeIntLength i.toInt.toNat = .ok (BigEndian.ofNat 4 i.toInt.toNat) ∧
      bytes = BigEndian.ofNat 4 i.toInt.toNat ++ rest := by
  obtain ⟨word, hlength, hbytes, hword⟩ := readInt_exact h
  have hpos : 0 ≤ i.toInt := by
    rw [Int32.lt_iff_toInt_lt] at hi
    exact Int.not_lt.1 hi
  obtain ⟨hsame, hsmall⟩ := BigEndian.toInt_nonneg (hword ▸ hpos)
  have hnat : i.toInt.toNat = BigEndian.toNat word := by omega
  rw [hlength] at hsmall
  rw [hnat]
  refine ⟨if_pos (by omega), ?_⟩
  have hform := BigEndian.ofNat_toNat word
  rw [hlength] at hform
  rw [hform, hbytes]

theorem readShort_exact {n : UInt16} (h : readShort bytes = .ok (n, rest)) :
    writeShortLength n.toNat = .ok (BigEndian.ofNat 2 n.toNat) ∧
      bytes = BigEndian.ofNat 2 n.toNat ++ rest := by
  rw [readShort] at h
  split at h
  · cases h
  · next word _ hsplit =>
    cases h
    obtain ⟨hbytes, hlength⟩ := split?_exact hsplit
    have hlt := BigEndian.toNat_lt word
    rw [hlength] at hlt
    have hform := BigEndian.ofNat_toNat word
    rw [hlength] at hform
    rw [UInt16.toNat_ofNat_of_lt' hlt, hform]
    exact ⟨by rw [writeShortLength, if_pos (by omega), hform], hbytes⟩

/-- What is read was written as the same. -/
def Exact {α : Type} (read : Bytes → Except Fault (α × Bytes)) (write : α → Except Fault Bytes) : Prop :=
  ∀ {bytes rest : Bytes} {a : α}, read bytes = .ok (a, rest) →
    ∃ written, write a = .ok written ∧ bytes = written ++ rest

theorem intLength_exact : Exact readIntLength writeIntLength := by
  intro bytes rest n h
  obtain ⟨⟨i, later⟩, hread, hlength⟩ := bind_ok_iff.1 h
  dsimp only at hlength
  split at hlength
  · cases hlength
  · next hi =>
    cases hlength
    exact ⟨_, readInt_length hread hi⟩

theorem size_exact (version : Version) : Exact (readSize version) (writeSize version) := by
  intro bytes rest size h
  rw [readSize] at h
  rw [writeSize]
  split at h
  · next hwide =>
    rw [if_pos hwide]
    exact intLength_exact h
  · next hnarrow =>
    obtain ⟨⟨n, later⟩, hread, hsize⟩ := bind_ok_iff.1 h
    cases hsize
    rw [if_neg hnarrow]
    exact ⟨_, readShort_exact hread⟩

/-- An element that is present, at every version. -/
theorem readElement_exact {version : Version} {value : Bytes}
    (h : readElement version bytes = .ok (some value, rest)) :
    ∃ written, writeElement version value = .ok written ∧ bytes = written ++ rest := by
  rw [readElement] at h
  rw [writeElement]
  split at h
  · next hwide =>
    obtain ⟨⟨i, later⟩, hlength, hvalue⟩ := bind_ok_iff.1 h
    dsimp only at hvalue
    split at hvalue
    · cases hvalue
    · next hi =>
      obtain ⟨⟨_, _⟩, hraw, hsame⟩ := bind_ok_iff.1 hvalue
      cases hsame
      obtain ⟨hwritten, rfl⟩ := readInt_length hlength hi
      obtain ⟨rfl, hcount⟩ := readRaw_exact hraw
      refine ⟨BigEndian.ofNat 4 i.toInt.toNat ++ _, ?_, (List.append_assoc ..).symm⟩
      rw [if_pos hwide, writeBytes, hcount, hwritten]
      rfl
  · next hnarrow =>
    obtain ⟨⟨_, _⟩, hread, hsame⟩ := bind_ok_iff.1 h
    cases hsame
    obtain ⟨⟨n, later⟩, hlength, hraw⟩ := bind_ok_iff.1 hread
    obtain ⟨hwritten, rfl⟩ := readShort_exact hlength
    obtain ⟨rfl, hcount⟩ := readRaw_exact hraw
    refine ⟨BigEndian.ofNat 2 n.toNat ++ _, ?_, (List.append_assoc ..).symm⟩
    rw [if_neg hnarrow, writeShortBytes, hcount, hwritten]
    rfl

/-- Elements take room, also empty ones. -/
theorem writeElement_ne_nil {version : Version} {value written : Bytes}
    (h : writeElement version value = .ok written) : written ≠ [] := by
  rintro rfl
  have hread := readElement_write h []
  cases version <;> cases hread

theorem readElement_length_lt {version : Version} {value : Bytes}
    (h : readElement version bytes = .ok (some value, rest)) : rest.length < bytes.length := by
  obtain ⟨written, hwritten, rfl⟩ := readElement_exact h
  have hpos := List.length_pos_of_ne_nil (writeElement_ne_nil hwritten)
  rw [List.length_append]
  omega

theorem readSize_length_lt {version : Version} {size : Nat}
    (h : readSize version bytes = .ok (size, rest)) : rest.length < bytes.length := by
  obtain ⟨written, hwritten, rfl⟩ := size_exact version h
  have hpos := List.length_pos_of_ne_nil (writeSize_ne_nil hwritten)
  rw [List.length_append]
  omega

end Wire

/-! ## Collections -/

namespace Collection

variable {type : ColumnType} {version : Version}

/-- The bytes of a collection as the writers put them one behind the other: the number of entries, then a
frame for each payload. -/
def written (version : Version) (count : Nat) (payloads : List Bytes) : Except Wire.Fault Bytes := do
  let size ← Wire.writeSize version count
  let frames ← payloads.mapM (Wire.writeElement version)
  .ok (size ++ frames.flatten)

theorem written_ok_iff {count : Nat} {payloads : List Bytes} {bytes : Bytes} :
    written version count payloads = .ok bytes ↔ ∃ size frames,
      Wire.writeSize version count = .ok size ∧
      List.Forall₂ (fun payload frame => Wire.writeElement version payload = .ok frame)
        payloads frames ∧
      bytes = size ++ frames.flatten := by
  simp only [written, bind_ok_iff, mapM_ok_iff_forall₂, Except.ok.injEq]
  constructor
  · rintro ⟨size, hsize, frames, hframes, rfl⟩
    exact ⟨size, frames, hsize, hframes, rfl⟩
  · rintro ⟨size, frames, hsize, hframes, rfl⟩
    exact ⟨size, hsize, frames, hframes, rfl⟩

/-- Elements that are taken were framed one behind the other, as many as were asked for. -/
theorem takeElements_exact {count : Nat} {done payloads : List Bytes} {bytes rest : Bytes}
    (h : takeElements type version done count bytes = .ok (payloads, rest)) :
    ∃ taken frames, payloads = done.reverse ++ taken ∧ taken.length = count ∧
      List.Forall₂ (fun payload frame => Wire.writeElement version payload = .ok frame) taken frames ∧
      bytes = frames.flatten ++ rest := by
  induction count generalizing done bytes with
  | zero =>
    cases h
    exact ⟨[], [], (List.append_nil _).symm, rfl, .nil, rfl⟩
  | succ count ih =>
    rw [takeElements] at h
    split at h
    · cases h
    · cases h
    · next element later hread =>
      obtain ⟨frame, hframe, rfl⟩ := Wire.readElement_exact hread
      obtain ⟨taken, frames, rfl, hcount, hframes, rfl⟩ := ih h
      refine ⟨element :: taken, frame :: frames, ?_, ?_, .cons hframe hframes, ?_⟩
      · rw [List.reverse_cons, List.append_assoc, List.singleton_append]
      · rw [List.length_cons, hcount]
      · rw [List.flatten_cons, List.append_assoc]

/-- Bytes are taken apart into elements exactly if they are what is written of them. -/
theorem split_ok_iff {perEntry : Nat} {bytes : Bytes} (hne : bytes ≠ []) {payloads : List Bytes} :
    split type version perEntry bytes = .ok payloads ↔
      ∃ count, payloads.length = count * perEntry ∧ written version count payloads = .ok bytes := by
  constructor
  · intro h
    rw [split, if_neg (by simpa using hne)] at h
    split at h
    · cases h
    · next count later hread =>
      obtain ⟨⟨elements, rest⟩, htake, hrest⟩ := bind_ok_iff.1 h
      dsimp only at hrest
      split at hrest
      · next hempty =>
        cases hrest
        cases List.isEmpty_iff.1 hempty
        obtain ⟨size, hsize, rfl⟩ := Wire.size_exact version hread
        obtain ⟨taken, frames, rfl, hcount, hframes, rfl⟩ := takeElements_exact htake
        refine ⟨count, hcount, written_ok_iff.2 ⟨size, frames, hsize, hframes, ?_⟩⟩
        rw [List.append_nil]
      · cases hrest
  · rintro ⟨count, hcount, hwritten⟩
    obtain ⟨size, frames, hsize, hframes, rfl⟩ := written_ok_iff.1 hwritten
    exact split_append hsize hcount hframes

/-- Elements in front of others are taken off. -/
theorem takeElements_front {payloads frames : List Bytes}
    (h : List.Forall₂ (fun payload frame => Wire.writeElement version payload = .ok frame)
      payloads frames) (done : List Bytes) (more : Nat) (rest : Bytes) :
    takeElements type version done (payloads.length + more) (frames.flatten ++ rest) =
      takeElements type version (payloads.reverse ++ done) more rest := by
  induction h generalizing done with
  | nil => simp
  | @cons payload frame payloads _ hframe _ ih =>
    have hcount : (payload :: payloads).length + more = payloads.length + more + 1 := by
      rw [List.length_cons, Nat.succ_add]
    rw [hcount, List.flatten_cons, List.append_assoc, takeElements, Wire.readElement_write hframe]
    dsimp only
    rw [ih, List.reverse_cons, List.append_assoc, List.singleton_append]

/-- A length that stands for an absent element ends the work, whatever comes behind it. -/
theorem split_absent {perEntry count : Nat} {payloads : List Bytes} {front absent rest : Bytes}
    (hwritten : written version count payloads = .ok front)
    (hcount : payloads.length < count * perEntry)
    (habsent : Wire.readElement version absent = .ok (none, rest)) :
    split type version perEntry (front ++ absent) = .error ⟨type, .incompatible .presentElement⟩ := by
  obtain ⟨size, frames, hsize, hframes, rfl⟩ := written_ok_iff.1 hwritten
  obtain ⟨more, hmore⟩ := Nat.exists_eq_add_of_lt hcount
  have htake : takeElements type version [] (count * perEntry) (frames.flatten ++ absent) =
      .error ⟨type, .incompatible .presentElement⟩ := by
    rw [hmore, Nat.add_assoc, takeElements_front hframes, takeElements, habsent]
  have hne : (size ++ (frames.flatten ++ absent)).isEmpty = false := by
    simp [Wire.writeSize_ne_nil hsize]
  rw [List.append_assoc, split, hne, if_neg Bool.false_ne_true, Wire.readSize_write hsize]
  dsimp only
  rw [htake]
  rfl

/-! ## Rounds -/

/-- Splits off elements as `takeElements` does, and counts how often it tries to read one. -/
def takeCounted (type : ColumnType) (version : Version) (done : List Bytes) :
    Nat → Bytes → Except Fault (List Bytes × Bytes) × Nat
  | 0, bytes => (.ok (done.reverse, bytes), 0)
  | count + 1, bytes =>
    match Wire.readElement version bytes with
    | .error fault => (.error ⟨type, .truncated fault⟩, 1)
    | .ok (none, _) => (.error ⟨type, .incompatible .presentElement⟩, 1)
    | .ok (some element, rest) =>
      let (outcome, rounds) := takeCounted type version (element :: done) count rest
      (outcome, rounds + 1)

/-- The elements of a collection as `split` finds them, with the number of rounds that this takes. -/
def splitCounted (type : ColumnType) (version : Version) (perEntry : Nat) (bytes : Bytes) :
    Except Fault (List Bytes) × Nat :=
  if bytes.isEmpty then (.ok [], 0)
  else
    match Wire.readSize version bytes with
    | .error fault => (.error ⟨type, .truncated fault⟩, 0)
    | .ok (count, rest) =>
      let (outcome, rounds) := takeCounted type version [] (count * perEntry) rest
      (outcome.bind fun (elements, rest) =>
        if rest.isEmpty then .ok elements else .error ⟨type, .trailingBytes rest.length⟩, rounds)

theorem takeCounted_fst (done : List Bytes) (count : Nat) (bytes : Bytes) :
    (takeCounted type version done count bytes).1 = takeElements type version done count bytes := by
  induction count generalizing done bytes with
  | zero => rfl
  | succ count ih =>
    rw [takeCounted, takeElements]
    cases Wire.readElement version bytes with
    | error fault => rfl
    | ok read =>
      obtain ⟨element, rest⟩ := read
      cases element with
      | none => rfl
      | some element => exact ih (element :: done) rest

theorem splitCounted_fst (perEntry : Nat) (bytes : Bytes) :
    (splitCounted type version perEntry bytes).1 = split type version perEntry bytes := by
  rw [splitCounted, split]
  split
  · rfl
  · cases Wire.readSize version bytes with
    | error fault => rfl
    | ok read =>
      obtain ⟨count, rest⟩ := read
      dsimp only
      rw [takeCounted_fst]
      rfl

/-- Every element that is read makes the rest shorter, so that only the last round can be in vain. -/
theorem takeCounted_snd_le (type : ColumnType) (version : Version) (done : List Bytes) (count : Nat)
    (bytes : Bytes) : (takeCounted type version done count bytes).2 ≤ bytes.length + 1 := by
  induction count generalizing done bytes with
  | zero => exact Nat.zero_le _
  | succ count ih =>
    rw [takeCounted]
    split
    · exact Nat.le_add_left 1 _
    · exact Nat.le_add_left 1 _
    · next element rest hread =>
      have hrounds := ih (element :: done) rest
      have hshorter := Wire.readElement_length_lt hread
      dsimp only
      omega

theorem splitCounted_snd_le (perEntry : Nat) (bytes : Bytes) :
    (splitCounted type version perEntry bytes).2 ≤ bytes.length := by
  rw [splitCounted]
  split
  · exact Nat.zero_le _
  · split
    · exact Nat.zero_le _
    · next count rest hread =>
      have hrounds := takeCounted_snd_le type version [] (count * perEntry) rest
      have hshorter := Wire.readSize_length_lt hread
      dsimp only
      omega

/-! ## Exact frames -/

/-- Bytes are the elements of a collection exactly if they are what the writers make of the number of
entries and of these elements, so that other bytes never have the same elements; an absent element is
refused in any place; and however many entries are announced, there are no more rounds than bytes. -/
theorem split_exact (type : ColumnType) (version : Version) (perEntry : Nat) (bytes : Bytes)
    (hne : bytes ≠ []) :
    (∀ payloads, split type version perEntry bytes = .ok payloads ↔
      ∃ count, payloads.length = count * perEntry ∧ written version count payloads = .ok bytes) ∧
    (0 < perEntry → ∀ other payloads, other ≠ [] → split type version perEntry bytes = .ok payloads →
      split type version perEntry other = .ok payloads → other = bytes) ∧
    (∀ count payloads front absent rest, bytes = front ++ absent →
      written version count payloads = .ok front → payloads.length < count * perEntry →
      Wire.readElement version absent = .ok (none, rest) →
      split type version perEntry bytes = .error ⟨type, .incompatible .presentElement⟩) ∧
    (splitCounted type version perEntry bytes).1 = split type version perEntry bytes ∧
    (splitCounted type version perEntry bytes).2 ≤ bytes.length := by
  refine ⟨fun payloads => split_ok_iff hne, ?_, ?_, splitCounted_fst perEntry bytes,
    splitCounted_snd_le perEntry bytes⟩
  · intro hpos other payloads hother h hsame
    obtain ⟨count, hcount, hwritten⟩ := (split_ok_iff hne).1 h
    obtain ⟨again, hagain, hrewritten⟩ := (split_ok_iff hother).1 hsame
    have heq : again = count := Nat.eq_of_mul_eq_mul_right hpos (hagain.symm.trans hcount)
    rw [heq, hwritten] at hrewritten
    exact (Except.ok.inj hrewritten).symm
  · rintro count payloads front absent rest rfl hwritten hcount habsent
    exact split_absent hwritten hcount habsent

/-- A map with an empty key; and the greatest number of entries there is, with an empty key and an absent
value behind it. -/
theorem split_exact_map :
    let type : ColumnType := .map (.native .text) (.native .tinyint) false
    let bytes : Bytes := [0, 0, 0, 1, 0, 0, 0, 0, 0, 0, 0, 1, 7]
    let announced : Bytes := [127, 255, 255, 255, 0, 0, 0, 0, 255, 255, 255, 255]
    bytes ≠ [] ∧ announced ≠ [] ∧ written .v4 1 [[], [7]] = .ok bytes ∧
      split type .v4 2 bytes = .ok [[], [7]] ∧
      (∀ other, other ≠ [] → split type .v4 2 other = .ok [[], [7]] → other = bytes) ∧
      split type .v4 2 announced = .error ⟨type, .incompatible .presentElement⟩ ∧
      (splitCounted type .v4 2 announced).2 ≤ 12 := by
  intro type bytes announced
  have hne : bytes ≠ [] := List.cons_ne_nil _ _
  have hannounced : announced ≠ [] := List.cons_ne_nil _ _
  have hwritten : written .v4 1 [[], [7]] = .ok bytes := by rfl
  obtain ⟨hexact, honce, -⟩ := split_exact type .v4 2 bytes hne
  obtain ⟨-, -, habsent, -, hrounds⟩ := split_exact type .v4 2 announced hannounced
  have hsplit := (hexact _).2 ⟨1, rfl, hwritten⟩
  refine ⟨hne, hannounced, hwritten, hsplit, ?_, ?_, hrounds⟩
  · exact fun other hother hsame => honce (by decide) other _ hother hsplit hsame
  · exact habsent (2 ^ 31 - 1) [[]] [127, 255, 255, 255, 0, 0, 0, 0] [255, 255, 255, 255] [] rfl
      (by rfl) (by decide) (by rfl)

end Collection

end Cql
