import Cql.Proofs.QuotedLiterals
import Cql.Proofs.Utf8

/-!
A document is the same one on the wire and in a literal. Whatever is read and written by a format, no byte
of its text is lost in quotes or in hexadecimal digits; only no text at all would be taken for an absent
document, so formats are asked to write something.
-/

namespace Cql

theorem Utf8.encode_ne_nil {t : Text} (h : t ≠ []) : encode t ≠ [] := by
  intro hnil
  have hdecode := decode_encode t
  rw [hnil] at hdecode
  exact h (Except.ok.inj hdecode).symm

namespace Json

theorem printReal_ne_nil (bits : Nat) : printReal bits ≠ [] := by
  have hpositional : ∀ n k, positional (Integer.digits n) k ≠ [] := fun n k =>
    (positional_isNumeral (Integer.digits_isDigits n) k).ne_nil
  rw [printReal]
  dsimp only
  split
  · exact List.cons_ne_nil _ _
  · split
    · decide
    · split
      · exact List.append_ne_nil_of_left_ne_nil (hpositional _ _) _
      · split
        · exact hpositional _ _
        · exact List.append_ne_nil_of_right_ne_nil _ (List.cons_ne_nil _ _)

theorem print_ne_nil (d : Document) : print d ≠ [] := by
  cases d with
  | null => decide
  | boolean b => cases b <;> decide
  | integer i => exact (Integer.print_isNumeral i).ne_nil
  | real bits => exact printReal_ne_nil _
  | string s => exact List.cons_ne_nil _ _
  | array items => exact List.cons_ne_nil _ _
  | object fields => exact List.cons_ne_nil _ _

end Json

namespace Codec

variable {α : Type} {format : DocumentFormat α} {type : NativeType}

/-! ## Reading -/

theorem document_decode {bytes : Bytes} (h : bytes ≠ []) (version : Version) :
    (documentOf format type).decode version bytes = (readDocument format type bytes).map some :=
  if_neg (by simpa using h)

theorem document_parse_quote (htype : type ≠ .blob) {t : Text} (ht : t ≠ []) (version : Version) :
    (documentOf format type).parse (Quoted.quote t) =
      (documentOf format type).decode version (Utf8.encode t) := by
  have hread : (documentOf format type).read (Quoted.quote t) =
      readDocument format type (Utf8.encode t) := by
    simp only [documentOf, if_neg htype, unquoted, Quoted.unquote_quote, orFail]
    rfl
  rw [parse_token (.inr ⟨t, rfl⟩) (Quoted.isNull_quote t), hread,
    document_decode (Utf8.encode_ne_nil ht)]

theorem document_parse_blob {bytes : Bytes} (h : bytes ≠ []) (version : Version) :
    (documentOf format .blob).parse (Hex.blob bytes) =
      (documentOf format .blob).decode version bytes := by
  have hread : (documentOf format .blob).read (Hex.blob bytes) =
      readDocument format .blob bytes := by
    simp only [documentOf, if_true, blob_read]
    rfl
  rw [parse_token (blob_token bytes) (blob_isNull bytes), hread, document_decode h]

/-! ## Writing -/

theorem documentText_ok {a : α} {t : Text} (h : documentText format type a = .ok t) :
    format.write a = .ok t := by
  rw [documentText] at h
  split at h
  · cases h
  · next hwrite => rw [hwrite, (checkAscii_ok_iff.1 h).1]

theorem document_encode (version : Version) (a : α) :
    (documentOf format type).encode version a = (documentText format type a).map Utf8.encode := rfl

theorem document_print (a : α) : (documentOf format type).print a =
    (documentText format type a).map fun t =>
      if type = .blob then Hex.blob (Utf8.encode t) else Quoted.quote t := rfl

/-- What is written of a document into a literal is read as what is written of it into bytes. -/
theorem document_parse_print (hwrite : ∀ a t, format.write a = .ok t → t ≠ []) {version : Version}
    {a : α} {bytes : Bytes} (h : (documentOf format type).encode version a = .ok bytes) :
    ∃ literal, (documentOf format type).print a = .ok literal ∧
      (documentOf format type).parse literal = (documentOf format type).decode version bytes := by
  rw [document_encode] at h
  obtain ⟨t, ht, rfl⟩ := map_ok_iff.1 h
  have hne := hwrite a t (documentText_ok ht)
  refine ⟨_, map_ok_iff.2 ⟨t, ht, rfl⟩, ?_⟩
  by_cases hblob : type = .blob
  · subst hblob
    rw [if_pos rfl, document_parse_blob (Utf8.encode_ne_nil hne)]
  · rw [if_neg hblob, document_parse_quote hblob hne]

theorem document?_ok {type : ColumnType} {codec : Codec α} (h : document? format type = .ok codec) :
    ∃ native, codec = documentOf format native := by
  unfold document? at h
  split at h <;> cases h <;> exact ⟨_, rfl⟩

/-- A document is read from the literal of its text as from the text itself, and from the digits of its
bytes as from these. A value can be stored if and only if it can be written as a literal, or else both
fail alike; what is written is read as what is stored. -/
theorem documents_agree (format : DocumentFormat α)
    (hwrite : ∀ a t, format.write a = .ok t → t ≠ []) :
    (∀ type ∈ [NativeType.text, .varchar, .ascii], ∃ codec,
      document? format (.native type) = .ok codec ∧ ∀ version t, t ≠ [] →
        codec.parse (Quoted.quote t) = codec.decode version (Utf8.encode t)) ∧
    (∃ codec, document? format (.native .blob) = .ok codec ∧ ∀ version bytes, bytes ≠ [] →
      codec.parse (Hex.blob bytes) = codec.decode version bytes) ∧
    ∀ type codec, document? format type = .ok codec → ∀ version a,
      (∀ fault, codec.encode version a = .error fault ↔ codec.print a = .error fault) ∧
        ∀ bytes, codec.encode version a = .ok bytes → ∃ literal, codec.print a = .ok literal ∧
          codec.parse literal = codec.decode version bytes := by
  refine ⟨fun type htype => ⟨documentOf format type, ?_, fun version t ht => ?_⟩,
    ⟨_, rfl, fun version bytes hbytes => document_parse_blob hbytes version⟩,
    fun type codec hcodec version a => ?_⟩
  · simp only [List.mem_cons, List.not_mem_nil, or_false] at htype
    rcases htype with rfl | rfl | rfl <;> rfl
  · exact document_parse_quote (by rintro rfl; simp at htype) ht version
  · obtain ⟨native, rfl⟩ := document?_ok hcodec
    refine ⟨fun fault => ?_, fun bytes hbytes => document_parse_print hwrite hbytes⟩
    rw [document_encode, document_print, map_error_iff, map_error_iff]

/-- A document with quotes and a blank at its end, as text and as bytes. -/
theorem documents_agree_json :
    let text : Codec Json.Document := documentOf .json .text
    let d : Json.Document := .string "it's "
    (∃ bytes, text.encode .v4 d = .ok bytes ∧ ∃ literal, text.print d = .ok literal ∧
      text.parse literal = text.decode .v4 bytes) ∧
    text.parse "'\"it''s \"'".toList = text.decode .v4 (Utf8.encode "\"it's \"".toList) ∧
    (documentOf .json .blob).parse "0x5b5d".toList = (documentOf .json .blob).decode .v4 [0x5B, 0x5D] := by
  intro text d
  have hwrite : ∀ a t, DocumentFormat.json.write a = .ok t → t ≠ [] := by
    rintro a t h
    cases h
    exact Json.print_ne_nil a
  obtain ⟨hstrings, ⟨blob, hblob, hbytes⟩, hwritten⟩ := documents_agree .json hwrite
  obtain ⟨codec, hcodec, hquoted⟩ := hstrings .text List.mem_cons_self
  cases hcodec
  cases hblob
  obtain ⟨bytes, hencode⟩ : ∃ bytes, text.encode .v4 d = .ok bytes := ⟨_, rfl⟩
  exact ⟨⟨bytes, hencode, (hwritten (.native .text) text rfl .v4 d).2 bytes hencode⟩,
    hquoted .v4 "\"it's \"".toList (by decide), hbytes .v4 [0x5B, 0x5D] (by decide)⟩

end Codec

end Cql
