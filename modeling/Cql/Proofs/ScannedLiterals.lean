import Cql.Proofs.PrintedValues

/-!
Where the scanner of values ends in what was printed. A literal in front of other values ends where it
was written to end, whatever its type, if no field of a user defined value in it has a quote or a bracket
in its name: the scanner does not tell quoted names from other text.
-/

namespace Cql

open Scanner (Scanned Ends Plain)

/-- No user defined value lists a field with a quote or a bracket in its name, at any depth. -/
def Value.PlainFields (v : Value) : Prop :=
  ∀ keyspace name fields, Part (.userDefined keyspace name fields) v →
    ∀ f ∈ fields, Plain f.1.toList

theorem Value.PlainFields.part {part v : Value} (h : v.PlainFields) (hpart : Part part v) :
    part.PlainFields :=
  fun keyspace name fields hinner => h keyspace name fields (hinner.trans hpart)

namespace Codec

/-- What is printed of such values is one value for the scanner. -/
def Scans (codec : Codec Value) : Prop := ∀ v s, v.PlainFields → codec.print v = .ok s → Scanned s

/-- Texts in brackets with commas between them. -/
theorem scanned_join {o c : Char} (hbrackets : Scanner.Brackets o c) {texts : List Text}
    (h : ∀ text ∈ texts, Scanner.Passes text) : Scanned (o :: (Text.join [','] texts ++ [c])) :=
  hbrackets.scanned ((Literal.spread_join texts).passes h)

theorem Scans.format {codec : Codec Value} (h : codec.Scans) {o : Option Value}
    (ho : ∀ v, o = some v → v.PlainFields) {s : Text} (hformat : codec.format o = .ok s) : Scanned s := by
  cases o with
  | none =>
    cases hformat
    exact scanned_null
  | some v => exact h v s (ho v rfl) hformat

/-! ## Simple types -/

section Scalars

variable {α : Type} {type : NativeType} {codec : Codec α} {make : α → Value}
  {get? : Value → Option α}

theorem scalar_scans (htoken : ∀ v a, get? v = some a → Literal.Token v.display) :
    (scalar type codec make get?).Scans := by
  intro v s _ h
  obtain ⟨rfl, ⟨a, hget⟩ | ⟨rfl, -⟩⟩ := scalar_print h
  · exact (htoken v a hget).scanned
  · exact (blob_token []).scanned

end Scalars

theorem ofNative_scans (type : NativeType) : (ofNative type).Scans := by
  cases type <;> refine scalar_scans fun v a hget => ?_
  all_goals cases v <;> cases hget
  all_goals first
    | exact .inr ⟨_, rfl⟩
    | exact uuid_token _
    | exact (Integer.print_isNumeral _).token
    | skip
  · exact blob_token _
  · exact (boolean_printed _).token
  · exact (Decimal.print_isNumeral _).token
  · exact (floating_token .double _).1
  · exact (floating_token .single _).1
  · exact (inet_printed _).token
  · exact (timestamp_printed _).token
  · exact (date_printed _).token

theorem rawBytes_scans (type : ColumnType) : (rawBytes type).Scans := by
  intro v s _ h
  cases v with
  | blob bytes =>
    cases h
    exact (blob_token bytes).scanned
  | _ => cases h

/-! ## Collections -/

variable {element key value : Codec Value}

theorem items_scans {type : ColumnType} {shape : Shape} {make : List Value → Value}
    {items? : Value → Option (List Value)} {opening close : Char}
    (hbrackets : Scanner.Brackets opening close) (helement : element.Scans)
    (hplain : ∀ v vs, items? v = some vs → v.PlainFields → ∀ w ∈ vs, w.PlainFields) :
    (items type shape make items? opening close element).Scans := by
  intro v s hv h
  obtain ⟨vs, texts, hvs, htexts, rfl⟩ := items_print h
  refine scanned_join hbrackets (forall_of_forall₂ htexts fun w hw text htext => ?_)
  exact (helement w text (hplain v vs hvs hv w hw) htext).passes

theorem map_scans (hkey : key.Scans) (hvalue : value.Scans) (frozen : Bool) :
    (map key value frozen).Scans := by
  intro v s hv h
  obtain ⟨entries, texts, rfl, htexts, rfl⟩ := map_print h
  refine scanned_join .curly (forall_of_forall₂ htexts fun e he text htext => ?_)
  obtain ⟨left, right, hleft, hright, rfl⟩ := printEntry_ok_iff.1 htext
  have hscanned := hkey e.1 left (hv.part (.key he .whole)) hleft
  have hscanned' := hvalue e.2 right (hv.part (.value he .whole)) hright
  exact (ColonText.tight left right).passes hscanned.passes hscanned'.passes

/-! ## Tuples and user types -/

theorem tuple_scans {ts : List ColumnType} (hts : ∀ t ∈ ts, t.codec.Scans) :
    (tupleValue (ColumnType.codecs ts)).Scans := by
  intro v s hv h
  obtain ⟨items, texts, rfl, htexts, rfl⟩ := tuple_print h
  refine scanned_join .round (forall_of_forall₂ htexts fun c hc text htext => ?_)
  obtain ⟨i, t, ht, rfl⟩ := mem_slots.1 hc
  have hformat : t.codec.format items[i]?.join = .ok text := htext
  refine ((hts t (List.mem_of_getElem? ht)).format (fun w hw => ?_) hformat).passes
  have hitem : items[i]? = some (some w) := Option.join_eq_some_iff.1 hw
  exact hv.part (.component (List.mem_of_getElem? hitem) .whole)

theorem userDefined_scans {t : UserType} (frozen : Bool) (hfields : ∀ f ∈ t.fields, f.2.codec.Scans) :
    (t.codec frozen t.fieldCodecs).Scans := by
  intro v s hv h
  obtain ⟨keyspace, name, fields, texts, rfl, htexts, rfl⟩ := UserType.codec_print h
  refine scanned_join .curly (forall_of_forall₂ htexts fun f hf text htext => ?_)
  obtain ⟨type, right, hmem, -, hright, rfl⟩ := UserType.printField_ok htext
  have hname := hv keyspace name fields .whole f hf
  have hscanned : Scanned right := by
    refine (hfields _ hmem).format (fun w hw => ?_) hright
    have hfield : (f.1, some w) ∈ fields := hw ▸ hf
    exact hv.part (.field hfield .whole)
  exact (ColonText.tight _ right).passes (UserType.plain_display hname).passes hscanned.passes

end Codec

/-! ## Every type -/

theorem ColumnType.codec_scans (t : ColumnType) : t.codec.Scans := by
  induction t with
  | native type => exact Codec.ofNative_scans type
  | list element frozen ih =>
    refine Codec.items_scans .square ih fun v vs hvs hv w hw => ?_
    cases v <;> cases hvs
    exact hv.part (.item hw .whole)
  | set element frozen ih =>
    refine Codec.items_scans .curly ih fun v vs hvs hv w hw => ?_
    cases v <;> cases hvs
    exact hv.part (.member hw .whole)
  | map key value frozen ihk ihv => exact Codec.map_scans ihk ihv frozen
  | tuple elements ih => exact Codec.tuple_scans ih
  | userDefined definition frozen ih => exact Codec.userDefined_scans frozen ih
  | custom name => exact Codec.rawBytes_scans _
  | empty => exact Codec.rawBytes_scans _

/-- In front of the end of the text, a blank, a separator or a closing bracket, the scanner takes exactly
the literal of a value and leaves what follows it. -/
theorem ColumnType.printed_skipped {t : ColumnType} {v : Value} (hv : v.PlainFields) {s : Text}
    (h : t.codec.print v = .ok s) {rest : Text} (hrest : Ends rest) :
    Scanner.skipValue (s ++ rest) = .ok (s, rest) :=
  (t.codec_scans v s hv h).skipValue_append hrest

/-- A key with the marks of literals in it, a field whose name must be quoted, and one without a value. -/
theorem ColumnType.printed_skipped_nested :
    let point : UserType := ⟨"ks", "point", [("x", .native .int), ("Full, Name", .native .text)]⟩
    let t : ColumnType := .map (.native .text) (.list (.userDefined point true) false) false
    let v : Value := .map [(.text "it's, [", .list [.userDefined "" ""
      [("Full, Name", none), ("x", some (.int (-1)))]])]
    v.PlainFields ∧ Ends [']', ',', ' ', '1'] ∧ ∃ s, t.codec.print v = .ok s ∧
      Scanner.skipValue (s ++ [']', ',', ' ', '1']) = .ok (s, [']', ',', ' ', '1']) := by
  intro point t v
  have hv : v.PlainFields := by
    intro keyspace name fields hpart
    dsimp only [v] at hpart
    rcases hpart with _ | _ | _ | ⟨hmem, hkey⟩ | ⟨hmem, hvalue⟩
    · cases List.mem_singleton.1 hmem
      cases hkey
    · cases List.mem_singleton.1 hmem
      rcases hvalue with _ | ⟨hmem, hitem⟩
      cases List.mem_singleton.1 hmem
      rcases hitem with _ | _ | _ | _ | _ | _ | ⟨hmem, hfield⟩
      · decide
      · rcases List.mem_pair.1 hmem with h | h <;> cases h
        cases hfield
  have hrest : Ends [']', ',', ' ', '1'] := Ends.cons (.inr rfl)
  obtain ⟨s, hs⟩ : ∃ s, t.codec.print v = .ok s := ⟨_, rfl⟩
  exact ⟨hv, hrest, s, hs, printed_skipped hv hs hrest⟩

/-- A quote in the name of a field opens a string for the scanner. -/
theorem ColumnType.printed_unskipped : ¬ ∀ (t : ColumnType) (v : Value) (s rest : Text),
    t.codec.print v = .ok s → Ends rest → Scanner.skipValue (s ++ rest) = .ok (s, rest) := by
  intro h
  generalize htext : "\x7b\"it's\":1\x7d".toList = text
  have hprint : (ColumnType.userDefined ⟨"ks", "note", [("it's", .native .int)]⟩ false).codec.print
      (.userDefined "ks" "note" [("it's", some (.int 1))]) = .ok text := by
    subst htext
    rfl
  have hfails : Scanner.skipValue text = .error ⟨text, .unterminatedValue⟩ := by
    subst htext
    decide +kernel
  have hskip := h _ _ text [] hprint Ends.nil
  rw [List.append_nil, hfails] at hskip
  cases hskip

end Cql
