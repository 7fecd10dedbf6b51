import Cql.Proofs.DecodedValues
import Cql.Proofs.LiteralRoundTrip

/-!
What the printing of a value looks at. A literal is put together from the literals of the parts of a
value, so where there is one the value has the shape of the type; nothing else is checked. Whether such
a value can also be stored depends on what it holds.
-/

namespace Cql

/-! ## The parts of a literal -/

namespace Codec

/-- A value of a simple type is printed as it is displayed if it is of the right kind, or empty. -/
theorem scalar_print {α : Type} {type : NativeType} {codec : Codec α} {make : α → Value}
    {get? : Value → Option α} {v : Value} {s : Text} (h : (scalar type codec make get?).print v = .ok s) :
    s = v.display ∧
      ((∃ a, get? v = some a) ∨ v = .empty ∧ get? v = none ∧ type.supportsEmpty = true) := by
  simp only [scalar] at h
  split at h
  · next a hget => exact ⟨(Except.ok.inj h).symm, .inl ⟨a, hget⟩⟩
  · next hget =>
    split at h
    · next hempty => exact ⟨(Except.ok.inj h).symm, .inr ⟨rfl, hget, hempty⟩⟩
    · cases h
  · cases h

theorem items_print {type : ColumnType} {shape : Shape} {make : List Value → Value}
    {items? : Value → Option (List Value)} {opening close : Char} {element : Codec Value} {v : Value}
    {s : Text} (h : (items type shape make items? opening close element).print v = .ok s) :
    ∃ vs texts, items? v = some vs ∧ List.Forall₂ (fun v text => element.print v = .ok text) vs texts ∧
      s = opening :: (Text.join [','] texts ++ [close]) := by
  simp only [items] at h
  split at h
  · next vs hvs =>
    obtain ⟨texts, htexts, heq⟩ := bind_ok_iff.1 h
    exact ⟨vs, texts, hvs, mapM_ok_iff_forall₂.1 htexts, (Except.ok.inj heq).symm⟩
  · cases h

theorem map_print {key value : Codec Value} {frozen : Bool} {v : Value} {s : Text}
    (h : (map key value frozen).print v = .ok s) :
    ∃ entries texts, v = .map entries ∧
      List.Forall₂ (fun e text => printEntry key value e = .ok text) entries texts ∧
      s = '\x7b' :: (Text.join [','] texts ++ ['\x7d']) := by
  cases v with
  | map entries =>
    obtain ⟨texts, htexts, heq⟩ := bind_ok_iff.1 h
    exact ⟨entries, texts, rfl, mapM_ok_iff_forall₂.1 htexts, (Except.ok.inj heq).symm⟩
  | _ => cases h

theorem printEntry_ok_iff {key value : Codec Value} {e : Value × Value} {text : Text} :
    printEntry key value e = .ok text ↔
      ∃ k v, key.print e.1 = .ok k ∧ value.print e.2 = .ok v ∧ text = k ++ ':' :: v := by
  simp only [printEntry, bind_ok_iff]
  constructor
  · rintro ⟨k, hk, v, hv, heq⟩
    exact ⟨k, v, hk, hv, (Except.ok.inj heq).symm⟩
  · rintro ⟨k, v, hk, hv, rfl⟩
    exact ⟨k, hk, v, hv, rfl⟩

/-- Every component of the type is printed, and none that the value has beyond them. -/
theorem tuple_print {ts : List ColumnType} {v : Value} {s : Text}
    (h : (tupleValue (ColumnType.codecs ts)).print v = .ok s) :
    ∃ items texts, v = .tuple items ∧
      List.Forall₂ (fun c text => c.format items = .ok text) (slots (ColumnType.codecs ts)) texts ∧
      s = '(' :: (Text.join [','] texts ++ [')']) := by
  cases v with
  | tuple items =>
    obtain ⟨texts, htexts, heq⟩ := bind_ok_iff.1 h
    exact ⟨items, texts, rfl, mapM_ok_iff_forall₂.1 htexts, (Except.ok.inj heq).symm⟩
  | _ => cases h

end Codec

namespace UserType

variable {t : UserType} {frozen : Bool}

theorem fieldCodec?_eq (t : UserType) (name : String) :
    t.fieldCodec? t.fieldCodecs name = (t.typeOf? name).map ColumnType.codec := by
  rw [fieldCodec?, zip_fieldCodecs, List.find?_map, Option.map_map, typeOf?, Option.map_map]
  rfl

theorem codec_print {v : Value} {s : Text} (h : (t.codec frozen t.fieldCodecs).print v = .ok s) :
    ∃ keyspace name fields texts, v = .userDefined keyspace name fields ∧
      List.Forall₂ (fun f text => t.printField frozen f = .ok text) fields texts ∧
      s = '\x7b' :: (Text.join [','] texts ++ ['\x7d']) := by
  cases v with
  | userDefined keyspace name fields =>
    obtain ⟨texts, htexts, heq⟩ := bind_ok_iff.1 h
    exact ⟨keyspace, name, fields, texts, rfl, mapM_ok_iff_forall₂.1 htexts, (Except.ok.inj heq).symm⟩
  | _ => cases h

theorem printField_ok {f : String × Option Value} {text : Text} (h : t.printField frozen f = .ok text) :
    ∃ type right, (f.1, type) ∈ t.fields ∧ t.typeOf? f.1 = some type ∧
      type.codec.format f.2 = .ok right ∧ text = Identifier.display f.1 ++ ':' :: right := by
  rw [printField, fieldCodec?_eq] at h
  split at h
  · cases h
  · next codec hcodec =>
    obtain ⟨right, hright, heq⟩ := bind_ok_iff.1 h
    obtain ⟨type, htype, rfl⟩ := Option.map_eq_some_iff.1 hcodec
    exact ⟨type, right, mem_of_typeOf? htype, htype, hright, (Except.ok.inj heq).symm⟩

end UserType

end Cql
