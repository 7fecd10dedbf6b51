import Cql.Proofs.LiteralRoundTrip

/-!
User defined values that list a field more than once. They are stored with what is listed first, and their
literals, which have all of it, are read with what is listed last.
-/

namespace Cql

namespace ColumnType

/-- From the bytes of a value every field is read as it is listed first. From its literal it is read as it is
listed last, if also the other values that are listed can be stored; so bytes and literal mean the same where
each field is listed with one value only. -/
theorem repeated_fields {t : ColumnType} (ht : t.Separable) {version : Version} {v : Value} {bytes : Bytes}
    (h : t.codec.encode version v = .ok bytes) :
    t.codec.decode version bytes = .ok (some (t.canonical v)) ∧
      (t.StoresParts version v → ∃ s w, t.codec.print v = .ok s ∧ t.codec.parse s = .ok (some w) ∧
        w.Alike (t.canonical v.lastFirst)) ∧
      (v.Consistent → ∃ s w, t.codec.print v = .ok s ∧ t.codec.parse s = .ok (some w) ∧
        w.Alike (t.canonical v)) := by
  refine ⟨t.codec_recovers version v bytes h, fun hstores => ?_, fun hv => ?_⟩
  · exact (t.rereads ht version v hstores).read
  · have hstores := storesParts_of_encode hv ⟨bytes, h⟩
    have hback := t.rereads ht version v hstores
    rw [t.keepsOrder ht version v hv hstores] at hback
    exact hback.read

/-- A field with two values and another one without a value between them, and a field that is listed with
the same value twice. -/
theorem repeated_fields_point :
    let point : UserType := ⟨"ks", "point", [("x", .native .int), ("Full Name", .native .text)]⟩
    let t : ColumnType := .userDefined point false
    let v : Value := .userDefined "" ""
      [("x", some (.int 1)), ("Full Name", none), ("x", some (.int 2))]
    let u : Value := .userDefined "" "" [("x", some (.int 1)), ("x", some (.int 1))]
    let made : Int32 → Value := fun x =>
      .userDefined "ks" "point" [("x", some (.int x)), ("Full Name", none)]
    (∃ bytes, t.codec.encode .v4 v = .ok bytes ∧ t.codec.decode .v4 bytes = .ok (some (made 1)) ∧
      ∃ s w, t.codec.print v = .ok s ∧ t.codec.parse s = .ok (some w) ∧ w.Alike (made 2)) ∧
    ∃ bytes, t.codec.encode .v4 u = .ok bytes ∧ t.codec.decode .v4 bytes = .ok (some (made 1)) ∧
      ∃ s w, t.codec.print u = .ok s ∧ t.codec.parse s = .ok (some w) ∧ w.Alike (made 1) := by
  intro point t v u made
  have ht : t.Separable := by
    intro definition frozen hpart
    have hpoint : point.Separable := ⟨by decide, by decide⟩
    dsimp only [t] at hpart
    rcases hpart with _ | _ | _ | _ | _ | _ | ⟨-, hfield, htype⟩
    · exact hpoint
    · rcases List.mem_pair.1 hfield with h | h <;> cases h <;> cases htype
  have hstores : t.StoresParts .v4 v := by
    intro type part hplaced
    dsimp only [t, v] at hplaced
    rcases hplaced with _ | _ | _ | _ | _ | _ | ⟨htype, hmem, hfield⟩
    · exact ⟨_, rfl⟩
    · simp only [List.mem_cons, List.not_mem_nil, or_false] at hmem
      rcases hmem with h | h | h <;> cases h <;> cases hfield <;>
        obtain rfl := Option.some.inj htype <;> exact ⟨_, rfl⟩
  have hu : u.Consistent := by
    intro keyspace name fields hpart
    dsimp only [u] at hpart
    rcases hpart with _ | _ | _ | _ | _ | _ | ⟨hmem, hfield⟩
    · intro field a b ha hb
      rcases List.mem_pair.1 ha with h | h <;> cases h <;>
        rcases List.mem_pair.1 hb with h | h <;> cases h <;> rfl
    · rcases List.mem_pair.1 hmem with h | h <;> cases h <;> cases hfield
  obtain ⟨bytes, hv⟩ : ∃ bytes, t.codec.encode .v4 v = .ok bytes := ⟨_, rfl⟩
  obtain ⟨bytes', hu'⟩ : ∃ bytes, t.codec.encode .v4 u = .ok bytes := ⟨_, rfl⟩
  obtain ⟨hdecode, hlast, -⟩ := repeated_fields ht hv
  obtain ⟨hdecode', -, hsame⟩ := repeated_fields ht hu'
  exact ⟨⟨bytes, hv, hdecode, hlast hstores⟩, bytes', hu', hdecode', hsame hu⟩

/-- The literal of a value with two values of a field is read as another value than the bytes are. -/
theorem repeated_field_differs :
    let t : ColumnType := .userDefined ⟨"ks", "t", [("a", .native .int)]⟩ false
    let v : Value := .userDefined "ks" "t" [("a", some (.int 1)), ("a", some (.int 2))]
    ∃ bytes, t.codec.encode .v4 v = .ok bytes ∧
      t.codec.decode .v4 bytes = .ok (some (.userDefined "ks" "t" [("a", some (.int 1))])) ∧
      t.codec.print v = .ok "\x7ba:1,a:2\x7d".toList ∧
      t.codec.parse "\x7ba:1,a:2\x7d".toList =
        .ok (some (.userDefined "ks" "t" [("a", some (.int 2))])) := by
  intro t v
  have hdigit : ∀ c, Identifier.isNameChar c = true → Scanner.Cut [c] := fun c hc =>
    (Scanner.scanned_names (List.cons_ne_nil _ _) (List.forall_mem_singleton.2 hc)).cut
  have hparts : List.Forall₂ UserType.EntryText ["a:1".toList, "a:2".toList] [("a", ['1']), ("a", ['2'])] :=
    .cons ⟨Codec.ColonText.tight (Identifier.display "a") _, hdigit '1' rfl⟩
      (.cons ⟨Codec.ColonText.tight (Identifier.display "a") _, hdigit '2' rfl⟩ .nil)
  have hparse := UserType.parse_entries ⟨"ks", "t", [("a", .native .int)]⟩ false
    (.more .nil .nil (List.cons_ne_nil _ _) (.last .nil .nil)) hparts
  exact ⟨_, rfl, by rfl, by rfl, hparse⟩

end ColumnType

end Cql
