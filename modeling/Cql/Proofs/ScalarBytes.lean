import Cql.Proofs.Canonical
import Cql.Proofs.Sequences
import Cql.Proofs.Utf8
import Cql.Proofs.Wire

/-!
Values of simple types survive as bytes. No bytes at all are written only for the empty value, where
the type has one, so that the two never meet.
-/

namespace Cql.Codec

variable {α : Type}

/-- What is stored of a value is read back as that value. -/
def Faithful (codec : Codec α) : Prop :=
  ∀ version a bytes, codec.encode version a = .ok bytes → codec.decode version bytes = .ok (some a)

/-- Every value takes at least one byte. -/
def TakesRoom (codec : Codec α) : Prop :=
  ∀ version a, codec.encode version a ≠ .ok []

/-- Every value that is read can be stored. -/
def Restores (codec : Codec α) : Prop :=
  ∀ version bytes a, codec.decode version bytes = .ok (some a) →
    ∃ back, codec.encode version a = .ok back

/-- Bytes never stand for an absent value. -/
def Present (codec : Codec α) : Prop :=
  ∀ version bytes, codec.decode version bytes ≠ .ok none

theorem restores_of_encode {codec : Codec α}
    (h : ∀ version a, ∃ back, codec.encode version a = .ok back) : codec.Restores :=
  fun version _ a _ => h version a

theorem fixedBytes_of_length {type : ColumnType} {width : Nat} {bytes : Bytes}
    (h : bytes.length = width) : fixedBytes type width bytes = .ok bytes := if_pos h

section Numbers

variable {type : NativeType} {kind : NumberKind} {width : Nat} {zero : α} {toBytes : α → Bytes}
  {ofBytes : Bytes → α} {print : α → Text} {readLiteral : Text → Option α}

theorem number_faithful (hpos : 0 < width) (hlength : ∀ a, (toBytes a).length = width)
    (hback : ∀ a, ofBytes (toBytes a) = a) :
    (number type kind width zero toBytes ofBytes print readLiteral).Faithful := by
  intro version a bytes h
  cases h
  have hne : toBytes a ≠ [] := List.ne_nil_of_length_pos (by rw [hlength]; exact hpos)
  simp [number, hne, fixedBytes_of_length (hlength a), hback, bind, Except.bind]

theorem number_takesRoom (hpos : 0 < width) (hlength : ∀ a, (toBytes a).length = width) :
    (number type kind width zero toBytes ofBytes print readLiteral).TakesRoom := by
  intro version a h
  simp only [number, Except.ok.injEq] at h
  have := hlength a
  rw [h, List.length_nil] at this
  omega

@[simp]
theorem number_restores :
    (number type kind width zero toBytes ofBytes print readLiteral).Restores :=
  restores_of_encode fun _ _ => ⟨_, rfl⟩

@[simp]
theorem number_present :
    (number type kind width zero toBytes ofBytes print readLiteral).Present := by
  intro version bytes h
  simp only [number] at h
  split at h
  · cases h
  · obtain ⟨raw, -, hraw⟩ := bind_ok_iff.1 h
    cases hraw

end Numbers

@[simp]
theorem tinyint_faithful : tinyint.Faithful :=
  number_faithful (by decide) (fun _ => BigEndian.length_ofInt _ _) fun i => by
    have hlow := i.le_toInt
    have hhigh := i.toInt_lt
    rw [BigEndian.toInt_ofInt (by omega) (by omega), Int8.ofInt_toInt]

@[simp]
theorem smallint_faithful : smallint.Faithful :=
  number_faithful (by decide) (fun _ => BigEndian.length_ofInt _ _) fun i => by
    have hlow := i.le_toInt
    have hhigh := i.toInt_lt
    rw [BigEndian.toInt_ofInt (by omega) (by omega), Int16.ofInt_toInt]

@[simp]
theorem int_faithful : int.Faithful :=
  number_faithful (by decide) (fun _ => BigEndian.length_ofInt _ _) fun i => by
    have hlow := i.le_toInt
    have hhigh := i.toInt_lt
    rw [BigEndian.toInt_ofInt (by omega) (by omega), Int32.ofInt_toInt]

theorem ofInt_toInt_bytes (i : Int64) :
    Int64.ofInt (BigEndian.toInt (BigEndian.ofInt 8 i.toInt)) = i := by
  have hlow := i.le_toInt
  have hhigh := i.toInt_lt
  rw [BigEndian.toInt_ofInt (by omega) (by omega), Int64.ofInt_toInt]

theorem long_faithful (type : NativeType) : (long type).Faithful :=
  number_faithful (by decide) (fun _ => BigEndian.length_ofInt _ _) ofInt_toInt_bytes

@[simp]
theorem bigint_faithful : bigint.Faithful := long_faithful _

@[simp]
theorem counter_faithful : counter.Faithful := long_faithful _

@[simp]
theorem float_faithful : float.Faithful :=
  number_faithful (by decide) (fun _ => BigEndian.length_ofNat _ _) fun bits => by
    rw [BigEndian.toNat_ofNat_of_lt (by exact bits.toNat_lt), UInt32.ofNat_toNat]

@[simp]
theorem double_faithful : double.Faithful :=
  number_faithful (by decide) (fun _ => BigEndian.length_ofNat _ _) fun bits => by
    rw [BigEndian.toNat_ofNat_of_lt (by exact bits.toNat_lt), UInt64.ofNat_toNat]

@[simp]
theorem tinyint_takesRoom : tinyint.TakesRoom :=
  number_takesRoom (by decide) fun _ => BigEndian.length_ofInt _ _

@[simp]
theorem smallint_takesRoom : smallint.TakesRoom :=
  number_takesRoom (by decide) fun _ => BigEndian.length_ofInt _ _

@[simp]
theorem int_takesRoom : int.TakesRoom :=
  number_takesRoom (by decide) fun _ => BigEndian.length_ofInt _ _

@[simp]
theorem bigint_takesRoom : bigint.TakesRoom :=
  number_takesRoom (by decide) fun _ => BigEndian.length_ofInt _ _

@[simp]
theorem float_takesRoom : float.TakesRoom :=
  number_takesRoom (by decide) fun _ => BigEndian.length_ofNat _ _

@[simp]
theorem double_takesRoom : double.TakesRoom :=
  number_takesRoom (by decide) fun _ => BigEndian.length_ofNat _ _

@[simp]
theorem boolean_faithful : boolean.Faithful := by
  intro version b bytes h
  cases h
  cases b <;> rfl

@[simp]
theorem boolean_takesRoom : boolean.TakesRoom := by
  intro version b h
  cases h

@[simp]
theorem boolean_restores : boolean.Restores := restores_of_encode fun _ _ => ⟨_, rfl⟩

theorem checkAscii_eq {type : NativeType} {t u : Text} (h : checkAscii type t = .ok u) : u = t := by
  unfold checkAscii at h
  split at h
  · simp [fail] at h
  · exact (Except.ok.inj h).symm

@[simp]
theorem string_faithful (type : NativeType) : (string type).Faithful := by
  intro version s bytes h
  simp only [string] at h ⊢
  obtain ⟨t, hcheck, rfl⟩ := map_ok_iff.1 h
  have ht := checkAscii_eq hcheck
  subst ht
  simp [Utf8.decode_encode, hcheck, Except.map]

/-- What bytes of a string are read as, and what was checked of it. -/
theorem string_decode_eq {type : NativeType} {version : Version} {bytes : Bytes} {o : Option String}
    (h : (string type).decode version bytes = .ok o) :
    ∃ t, checkAscii type t = .ok t ∧ o = some (String.ofList t) := by
  simp only [string] at h
  split at h
  · simp [fail] at h
  · obtain ⟨t, hcheck, rfl⟩ := map_ok_iff.1 h
    have ht := checkAscii_eq hcheck
    subst ht
    exact ⟨t, hcheck, rfl⟩

/-- Only strings are read that pass the check of those that are stored. -/
@[simp]
theorem string_restores (type : NativeType) : (string type).Restores := by
  intro version bytes s h
  obtain ⟨t, hcheck, heq⟩ := string_decode_eq h
  cases heq
  refine ⟨Utf8.encode t, map_ok_iff.2 ⟨t, ?_, rfl⟩⟩
  rw [String.toList_ofList]
  exact hcheck

@[simp]
theorem string_present (type : NativeType) : (string type).Present := by
  intro version bytes h
  obtain ⟨t, -, heq⟩ := string_decode_eq h
  cases heq

@[simp]
theorem blob_faithful : blob.Faithful := by
  intro version value bytes h
  cases h
  rfl

@[simp]
theorem blob_restores : blob.Restores := restores_of_encode fun _ _ => ⟨_, rfl⟩

@[simp]
theorem blob_present : blob.Present := by
  intro version bytes h
  cases h

theorem checkVersion_eq {type : NativeType} {u w : Uuid} (h : checkVersion type u = .ok w) :
    w = u := by
  unfold checkVersion at h
  split at h
  · simp [fail] at h
  · exact (Except.ok.inj h).symm

theorem ofBytes?_bytes (u : Uuid) : Uuid.ofBytes? u.bytes = some u := dif_pos u.length_bytes

theorem uuid_encode_eq {type : NativeType} {version : Version} {u : Uuid} {bytes : Bytes}
    (h : (uuid type).encode version u = .ok bytes) : checkVersion type u = .ok u ∧ bytes = u.bytes := by
  simp only [uuid] at h
  cases hcheck : checkVersion type u with
  | error fault => simp [hcheck, Except.map] at h
  | ok w =>
    have hw := checkVersion_eq hcheck
    subst hw
    rw [hcheck] at h
    exact ⟨rfl, (Except.ok.inj h).symm⟩

@[simp]
theorem uuid_takesRoom (type : NativeType) : (uuid type).TakesRoom := by
  intro version u h
  have hlength := u.length_bytes
  rw [← (uuid_encode_eq h).2] at hlength
  cases hlength

@[simp]
theorem uuid_faithful (type : NativeType) : (uuid type).Faithful := by
  intro version u bytes h
  obtain ⟨hcheck, rfl⟩ := uuid_encode_eq h
  have hne : u.bytes ≠ [] := List.ne_nil_of_length_pos (by rw [u.length_bytes]; decide)
  simp [uuid, hne, ofBytes?_bytes, hcheck, Except.map]

/-- The version is checked when an identifier is read, and then again when it is stored. -/
@[simp]
theorem uuid_restores (type : NativeType) : (uuid type).Restores := by
  intro version bytes u h
  simp only [uuid] at h ⊢
  split at h
  · cases h
  · split at h
    · simp [fail] at h
    · obtain ⟨w, hcheck, heq⟩ := map_ok_iff.1 h
      cases heq
      have hw := checkVersion_eq hcheck
      subst hw
      exact ⟨u.bytes, map_ok_iff.2 ⟨u, hcheck, rfl⟩⟩

theorem length_bytes_pos (address : Address) : 0 < address.bytes.length := by
  cases address with
  | v4 bytes h => simp [Address.bytes, h]
  | v6 bytes h => simp [Address.bytes, h]

theorem address_ofBytes?_bytes (address : Address) :
    Address.ofBytes? address.bytes = some address := by
  cases address with
  | v4 bytes h => simp [Address.ofBytes?, Address.bytes, h]
  | v6 bytes h => simp [Address.ofBytes?, Address.bytes, h]

@[simp]
theorem inet_takesRoom : inet.TakesRoom := by
  intro version address h
  have hpos := length_bytes_pos address
  simp only [inet, Except.ok.injEq] at h
  rw [h] at hpos
  cases hpos

@[simp]
theorem inet_faithful : inet.Faithful := by
  intro version address bytes h
  cases h
  have hne : address.bytes ≠ [] := List.ne_nil_of_length_pos (length_bytes_pos address)
  simp [inet, hne, address_ofBytes?_bytes]

@[simp]
theorem inet_restores : inet.Restores := restores_of_encode fun _ _ => ⟨_, rfl⟩

@[simp]
theorem varint_faithful : varint.Faithful := by
  intro version i bytes h
  cases h
  simp [varint, BigEndian.toInt_ofIntMinimal]

@[simp]
theorem varint_takesRoom : varint.TakesRoom := by
  intro version i h
  exact BigEndian.ofIntMinimal_ne_nil i (Except.ok.inj h)

@[simp]
theorem varint_restores : varint.Restores := restores_of_encode fun _ _ => ⟨_, rfl⟩

theorem decimal_encode_eq {version : Version} {d : Decimal} {bytes : Bytes}
    (h : decimal.encode version d = .ok bytes) :
    (-2 ^ 31 ≤ d.scale ∧ d.scale < 2 ^ 31) ∧
      bytes = BigEndian.ofInt 4 d.scale ++ BigEndian.ofIntMinimal d.unscaled := by
  simp only [decimal] at h
  split at h
  · exact ⟨by assumption, (Except.ok.inj h).symm⟩
  · simp [fail] at h

@[simp]
theorem decimal_faithful : decimal.Faithful := by
  intro version d bytes h
  obtain ⟨⟨hlow, hhigh⟩, rfl⟩ := decimal_encode_eq h
  have hlength := BigEndian.length_ofInt 4 d.scale
  have hscale : BigEndian.toInt (BigEndian.ofInt 4 d.scale) = d.scale :=
    BigEndian.toInt_ofInt (by omega) (by omega)
  simp only [decimal, List.length_append, hlength]
  rw [if_neg (by omega), List.drop_left' hlength, List.take_left' hlength,
    BigEndian.toInt_ofIntMinimal, hscale]

@[simp]
theorem decimal_takesRoom : decimal.TakesRoom := by
  intro version d h
  have hlength := congrArg List.length (decimal_encode_eq h).2
  rw [List.length_append, BigEndian.length_ofInt, List.length_nil] at hlength
  omega

/-- Four bytes are never out of the range of a scale. -/
@[simp]
theorem decimal_restores : decimal.Restores := by
  intro version bytes d h
  simp only [decimal] at h ⊢
  split at h
  · simp [fail] at h
  · rename_i hlength
    cases h
    have hbounds := BigEndian.toInt_bounds (bytes.take 4)
    rw [List.length_take, Nat.min_eq_left (by omega)] at hbounds
    exact ⟨_, if_pos ⟨by dsimp only; omega, by dsimp only; omega⟩⟩

@[simp]
theorem timestampMillis_faithful : timestampMillis.Faithful := by
  intro version millis bytes h
  cases h
  have hlength := BigEndian.length_ofInt 8 millis.toInt
  have hne : BigEndian.ofInt 8 millis.toInt ≠ [] :=
    List.ne_nil_of_length_pos (by rw [hlength]; decide)
  simp [timestampMillis, hne, fixedBytes_of_length hlength, ofInt_toInt_bytes, bind, Except.bind]

@[simp]
theorem timestampMillis_takesRoom : timestampMillis.TakesRoom := by
  intro version millis h
  have hlength := congrArg List.length (Except.ok.inj h)
  rw [BigEndian.length_ofInt] at hlength
  cases hlength

@[simp]
theorem timestampMillis_restores : timestampMillis.Restores := restores_of_encode fun _ _ => ⟨_, rfl⟩

@[simp]
theorem storedDate_faithful : storedDate.Faithful := by
  intro version days bytes h
  cases h
  simp only [storedDate, fixedBytes_of_length (BigEndian.length_ofNat 4 days.toNat), bind, Except.bind]
  rw [BigEndian.toNat_ofNat_of_lt (by exact days.toNat_lt), UInt32.ofNat_toNat]

@[simp]
theorem storedDate_takesRoom : storedDate.TakesRoom := by
  intro version days h
  have hlength := congrArg List.length (Except.ok.inj h)
  rw [BigEndian.length_ofNat] at hlength
  cases hlength

@[simp]
theorem storedDate_restores : storedDate.Restores := restores_of_encode fun _ _ => ⟨_, rfl⟩

theorem storedTime_encode_eq {version : Version} {nanos : Int64} {bytes : Bytes}
    (h : storedTime.encode version nanos = .ok bytes) :
    isWithinDay nanos.toInt = true ∧ bytes = BigEndian.ofInt 8 nanos.toInt := by
  simp only [storedTime] at h
  split at h
  · exact ⟨by assumption, (Except.ok.inj h).symm⟩
  · simp [fail] at h

@[simp]
theorem storedTime_faithful : storedTime.Faithful := by
  intro version nanos bytes h
  obtain ⟨hday, rfl⟩ := storedTime_encode_eq h
  have hlow := nanos.le_toInt
  have hhigh := nanos.toInt_lt
  have hback : BigEndian.toInt (BigEndian.ofInt 8 nanos.toInt) = nanos.toInt :=
    BigEndian.toInt_ofInt (by omega) (by omega)
  simp [storedTime, fixedBytes_of_length (BigEndian.length_ofInt 8 nanos.toInt), hback, hday, bind,
    Except.bind]

/-- Times beyond the day are neither read nor stored. -/
@[simp]
theorem storedTime_restores : storedTime.Restores := by
  intro version bytes nanos h
  obtain ⟨raw, hraw, hread⟩ := bind_ok_iff.1 h
  have hlength : raw.length = 8 := by
    simp only [fixedBytes] at hraw
    split at hraw
    · rename_i hlength
      cases hraw
      exact hlength
    · simp [fail] at hraw
  have hbounds := BigEndian.toInt_bounds raw
  rw [hlength] at hbounds
  dsimp only at hread
  split at hread
  · rename_i hday
    cases hread
    have hsame : (Int64.ofInt (BigEndian.toInt raw)).toInt = BigEndian.toInt raw :=
      Int64.toInt_ofInt_of_le (by omega) (by omega)
    exact ⟨_, if_pos (by rw [hsame]; exact hday)⟩
  · simp [fail] at hread

@[simp]
theorem storedTime_takesRoom : storedTime.TakesRoom := by
  intro version nanos h
  have hlength := congrArg List.length (storedTime_encode_eq h).2
  rw [BigEndian.length_ofInt] at hlength
  cases hlength

end Cql.Codec
