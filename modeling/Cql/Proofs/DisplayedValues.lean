import Cql.Proofs.PrintedValues

/-!
A value is printed by its type as it is displayed by itself, wherever it can be printed. Only tuples make a
difference: their types say how many components are printed, and the values how many are displayed.
-/

namespace Cql

/-! ## Displayed parts -/

namespace Value

/-- What is displayed of a component or a field. -/
def displayPart : Option Value → Text
  | none => nullText
  | some v => v.display

/-- A field as it is displayed, behind its name. -/
def displayField (f : String × Option Value) : Text := Identifier.display f.1 ++ ':' :: displayPart f.2

theorem displayAll_eq (items : List Value) : displayAll items = items.map display := by
  induction items with
  | nil => simp [displayAll]
  | cons v items ih => simp [displayAll, ih]

theorem displayEntries_eq (entries : List (Value × Value)) :
    displayEntries entries = entries.map fun e => e.1.display ++ ':' :: e.2.display := by
  induction entries with
  | nil => simp [displayEntries]
  | cons e entries ih => simp [displayEntries, ih]

theorem displayComponents_eq (items : List (Option Value)) :
    displayComponents items = items.map displayPart := by
  induction items with
  | nil => simp [displayComponents]
  | cons item items ih => cases item <;> simp [displayComponents, displayPart, ih]

theorem displayFields_eq (fields : List (String × Option Value)) :
    displayFields fields = fields.map displayField := by
  induction fields with
  | nil => simp [displayFields]
  | cons f fields ih =>
    obtain ⟨name, item⟩ := f
    cases item <;> simp [displayFields, displayField, displayPart, ih]

end Value

/-- Every tuple in a value has as many components as the type in whose place it stands. -/
def ColumnType.Fits (t : ColumnType) (v : Value) : Prop :=
  ∀ elements items, Placed (.tuple elements) (.tuple items) t v → items.length = elements.length

theorem ColumnType.Fits.part {type t : ColumnType} {part v : Value} (h : t.Fits v)
    (hplaced : Placed type part t v) : type.Fits part :=
  fun elements items hinner => h elements items (hinner.trans hplaced)

/-- What is printed of a value that fits is what is displayed of it. -/
def ColumnType.Displays (t : ColumnType) : Prop :=
  ∀ v s, t.Fits v → t.codec.print v = .ok s → s = v.display

namespace ColumnType

variable {t element key value : ColumnType} {ts : List ColumnType} {frozen : Bool}

theorem Displays.format (h : t.Displays) {item : Option Value} {s : Text}
    (hfits : ∀ v, item = some v → t.Fits v) (hformat : t.codec.format item = .ok s) :
    s = Value.displayPart item := by
  cases item with
  | none => exact (Except.ok.inj hformat).symm
  | some v => exact h v s (hfits v rfl) hformat

theorem displays_native (type : NativeType) : (native type).Displays := by
  intro v s _ h
  rw [codec] at h
  cases type
  all_goals exact (Codec.scalar_print h).1

theorem displays_rawBytes {type : ColumnType} {v : Value} {s : Text}
    (h : (Codec.rawBytes type).print v = .ok s) : s = v.display := by
  cases v with
  | blob bytes => exact (Except.ok.inj h).symm
  | _ => cases h

/-! ## Collections -/

theorem displays_list (h : element.Displays) : (list element frozen).Displays := by
  intro v s hfits hprint
  obtain ⟨items, texts, hitems, htexts, rfl⟩ := Codec.items_print hprint
  cases v <;> cases hitems
  have hdisplay := eq_map_of_forall₂ htexts fun item hmem text htext =>
    h item text (hfits.part (.item hmem .whole)) htext
  rw [hdisplay, Value.display, Value.displayAll_eq]
  rfl

theorem displays_set (h : element.Displays) : (set element frozen).Displays := by
  intro v s hfits hprint
  obtain ⟨items, texts, hitems, htexts, rfl⟩ := Codec.items_print hprint
  cases v <;> cases hitems
  have hdisplay := eq_map_of_forall₂ htexts fun item hmem text htext =>
    h item text (hfits.part (.member hmem .whole)) htext
  rw [hdisplay, Value.display, Value.displayAll_eq]
  rfl

theorem displays_map (hkey : key.Displays) (hvalue : value.Displays) :
    (map key value frozen).Displays := by
  intro v s hfits hprint
  obtain ⟨entries, texts, rfl, htexts, rfl⟩ := Codec.map_print hprint
  have hdisplay := eq_map_of_forall₂ (f := fun e => e.1.display ++ ':' :: e.2.display) htexts
    fun e hmem text htext => by
      obtain ⟨left, right, hleft, hright, rfl⟩ := Codec.printEntry_ok_iff.1 htext
      rw [hkey e.1 left (hfits.part (.key hmem .whole)) hleft,
        hvalue e.2 right (hfits.part (.value hmem .whole)) hright]
  rw [hdisplay, Value.display, Value.displayEntries_eq]
  rfl

/-! ## Tuples and user types -/

theorem displays_tuple (h : ∀ t ∈ ts, t.Displays) : (tuple ts).Displays := by
  intro v s hfits hprint
  obtain ⟨items, texts, rfl, htexts, rfl⟩ := Codec.tuple_print hprint
  have hlength := hfits ts items .whole
  rw [slots, codecs_eq, List.zipIdx_map, List.map_map, List.forall₂_map_left_iff] at htexts
  have hdisplay := eq_map_of_forall₂ (f := fun p => Value.displayPart items[p.2]?.join) htexts
    fun p hp text htext => by
      have htype : ts[p.2]? = some p.1 := List.mem_zipIdx_iff_getElem?.1 hp
      refine (h p.1 (List.mem_of_getElem? htype)).format (fun v hv => ?_) htext
      exact hfits.part (.component htype (Option.join_eq_some_iff.1 hv) .whole)
  -- each component of the value has its place in the type
  have hall : texts = items.map Value.displayPart := by
    rw [hdisplay]
    apply List.ext_getElem
    · simp [hlength]
    · intro i hi hi'
      simp at hi'
      simp [hi']
  rw [hall, Value.display, Value.displayComponents_eq]
  rfl

theorem displays_userDefined {definition : UserType} (h : ∀ f ∈ definition.fields, f.2.Displays) :
    (userDefined definition frozen).Displays := by
  intro v s hfits hprint
  obtain ⟨keyspace, name, fields, texts, rfl, htexts, rfl⟩ := UserType.codec_print hprint
  have hdisplay := eq_map_of_forall₂ (f := Value.displayField) htexts fun f hf text htext => by
    obtain ⟨type, right, hmem, htype, hright, rfl⟩ := UserType.printField_ok htext
    have hpart : right = Value.displayPart f.2 := by
      refine (h _ hmem).format (fun v hv => ?_) hright
      have hfield : (f.1, some v) ∈ fields := hv ▸ hf
      exact hfits.part (.field htype hfield .whole)
    rw [hpart, Value.displayField]
  rw [hdisplay, Value.display, Value.displayFields_eq]
  rfl

/-! ## Every type -/

theorem displays (t : ColumnType) : t.Displays := by
  induction t with
  | native type => exact displays_native type
  | list element frozen ih => exact displays_list ih
  | set element frozen ih => exact displays_set ih
  | map key value frozen hkey hvalue => exact displays_map hkey hvalue
  | tuple elements ih => exact displays_tuple ih
  | userDefined definition frozen ih => exact displays_userDefined ih
  | custom name => exact fun _ _ _ => displays_rawBytes
  | empty => exact fun _ _ _ => displays_rawBytes

/-- By the type or by the value alone, the literal is the same, if every tuple has exactly the components of
its type. -/
theorem printed_displayed {v : Value} {s : Text} (hfits : t.Fits v) (h : t.codec.print v = .ok s) :
    s = v.display :=
  t.displays v s hfits h

/-- An empty key, a field whose name must be quoted and one before the calendar, and components without a
value. -/
theorem printed_displayed_nested :
    let note : UserType := ⟨"ks", "note", [("Full Name", .native .text), ("day", .native .date)]⟩
    let t : ColumnType :=
      .map (.native .int) (.list (.tuple [.userDefined note true, .native .double]) false) false
    let v : Value := .map [(.empty, .list [.tuple [some (.userDefined "" ""
      [("day", some (.date 0)), ("Full Name", none)]), none]])]
    t.Fits v ∧ ∃ s, t.codec.print v = .ok s ∧ s = v.display := by
  intro note t v
  have hfits : t.Fits v := by
    intro elements items hplaced
    dsimp only [t, v] at hplaced
    rcases hplaced with _ | _ | _ | ⟨hmem, hkey⟩ | ⟨hmem, hvalue⟩
    · cases List.mem_singleton.1 hmem
      cases hkey
    · cases List.mem_singleton.1 hmem
      rcases hvalue with _ | ⟨hmem, hitem⟩
      cases List.mem_singleton.1 hmem
      rcases hitem with _ | _ | _ | _ | _ | @⟨_, _, i, _, _, htype, hitem, hcomponent⟩
      · rfl
      · rcases i with _ | _ | i
        · cases htype
          cases hitem
          rcases hcomponent with _ | _ | _ | _ | _ | _ | ⟨-, hmem, hfield⟩
          rcases List.mem_pair.1 hmem with h | h <;> cases h
          cases hfield
        · cases hitem
        · cases htype
  obtain ⟨s, hs⟩ : ∃ s, t.codec.print v = .ok s := ⟨_, rfl⟩
  exact ⟨hfits, s, hs, printed_displayed hfits hs⟩

end ColumnType

end Cql
