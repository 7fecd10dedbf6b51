import Cql.Proofs.BracketedLiterals
import Cql.Proofs.ByteScans

/-!
Names are told apart. A name that is displayed is skipped as it stands and denotes what it was displayed
for, whatever characters are in it; so every entry of a literal is about the field of its own name.
-/

namespace Cql

open Literal (Spread)

theorem Identifier.display_injective : Function.Injective display :=
  Function.LeftInverse.injective read_display

namespace UserType

/-! ## Fields that are set -/

theorem setField_names (name : String) (o : Option Value) (fields : List (String × Option Value)) :
    (setField name o fields).map (·.1) = fields.map (·.1) := by
  induction fields with
  | nil => rfl
  | cons f fields ih =>
    rw [setField]
    split
    · rfl
    · rw [List.map_cons, List.map_cons, ih]

theorem fieldValue_cons (f : String × Option Value) (fields : List (String × Option Value))
    (name : String) :
    fieldValue (f :: fields) name = if f.1 == name then f.2 else fieldValue fields name := by
  rw [fieldValue, List.find?_cons]
  cases f.1 == name <;> rfl

theorem fieldValue_setField {fields : List (String × Option Value)} {name : String}
    (hmem : name ∈ fields.map (·.1)) (o : Option Value) (other : String) :
    fieldValue (setField name o fields) other =
      if name == other then o else fieldValue fields other := by
  induction fields with
  | nil => exact absurd hmem List.not_mem_nil
  | cons f fields ih =>
    rw [setField]
    by_cases hname : f.1 = name
    · subst hname
      rw [if_pos (beq_self_eq_true _), fieldValue_cons, fieldValue_cons]
      split <;> rfl
    · have hlater : name ∈ fields.map (·.1) := by
        rcases List.mem_cons.1 hmem with h | h
        · exact absurd h.symm hname
        · exact h
      rw [if_neg (by simpa using hname), fieldValue_cons, fieldValue_cons, ih hlater]
      by_cases hother : f.1 = other
      · have hne : name ≠ other := fun h => hname (hother.trans h.symm)
        simp [hother, hne]
      · simp [hother]

/-! ## Fields that are read -/

variable {t : UserType} {frozen : Bool} {literal : Text} {entries : List (String × Text)}
  {fields : List (String × Option Value)}

/-- The fields of the type in their order. Each has the value of the last entry of exactly its name, and
none if there is no such entry. -/
def ReadFrom (t : UserType) (entries : List (String × Text)) (fields : List (String × Option Value)) :
    Prop :=
  fields.map (·.1) = t.fieldNames ∧ ∀ name type, (name, type) ∈ t.fields →
    match entries.reverse.find? (·.1 == name) with
    | none => fieldValue fields name = none
    | some (_, text) => type.codec.parse text = .ok (fieldValue fields name)

theorem readField_ok {e : String × Text} {next : List (String × Option Value)}
    (h : t.readField frozen literal fields e = .ok next) : ∃ codec o,
      t.fieldCodec? t.fieldCodecs e.1 = some codec ∧ codec.parse e.2 = .ok o ∧
        next = setField e.1 o fields := by
  rw [readField] at h
  split at h
  · cases h
  · next codec hcodec =>
    obtain ⟨o, hparse, rfl⟩ := map_ok_iff.1 h
    exact ⟨codec, o, hcodec, hparse, rfl⟩

theorem fieldCodec?_mem {name : String} {codec : Codec Value}
    (h : t.fieldCodec? t.fieldCodecs name = some codec) : name ∈ t.fieldNames := by
  obtain ⟨found, hfound, -⟩ := Option.map_eq_some_iff.1 h
  have hname : found.1 = name := by simpa using List.find?_some hfound
  rw [← hname]
  exact (List.of_mem_zip (List.mem_of_find?_eq_some hfound)).1

/-- Entries that are read one after the other, each under its own name. -/
theorem foldlM_readField (ht : t.fieldNames.Nodup)
    (h : entries.foldlM (t.readField frozen literal) (t.fieldNames.map fun n => (n, none)) =
      .ok fields) : t.ReadFrom entries fields := by
  -- the entry that counts is the last one, so the induction is on the entries from behind
  induction entries using List.reverseRecOn generalizing fields with
  | nil =>
    cases h
    refine ⟨by simp [Function.comp_def], fun name type _ => ?_⟩
    show ((t.fieldNames.map fun n => (n, none)).find? (·.1 == name)).bind (·.2) = none
    rw [Option.bind_eq_none_iff]
    intro f hf
    obtain ⟨n, -, rfl⟩ := List.mem_map.1 (List.mem_of_find?_eq_some hf)
    rfl
  | append_singleton entries e ih =>
    rw [List.foldlM_append] at h
    obtain ⟨before, hbefore, hlast⟩ := bind_ok_iff.1 h
    obtain ⟨hnames, hvalues⟩ := ih hbefore
    rw [List.foldlM_cons] at hlast
    obtain ⟨next, hnext, hnil⟩ := bind_ok_iff.1 hlast
    cases hnil
    obtain ⟨codec, o, hcodec, hparse, rfl⟩ := readField_ok hnext
    have hmem : e.1 ∈ before.map (·.1) := hnames ▸ fieldCodec?_mem hcodec
    refine ⟨(setField_names ..).trans hnames, fun name type htype => ?_⟩
    rw [List.reverse_concat, List.find?_cons, fieldValue_setField hmem]
    by_cases hname : e.1 = name
    · subst hname
      have hsame := hcodec.symm.trans (fieldCodec?_of_mem ht htype)
      cases hsame
      simpa using hparse
    · have hother : (e.1 == name) = false := by simpa using hname
      simp only [hother, Bool.false_eq_true, if_false]
      exact hvalues name type htype

end UserType

/-- A name is skipped exactly as it is displayed, over bytes and over characters, in front of everything
that could not go on with it; what was skipped denotes the name, and no other name is displayed in the
same way. The literal of a user defined value is its entries read in their order, each by the codec of the
field of its name. -/
theorem Identifier.display_reads_back :
    (∀ (name : String) (rest : Text),
      (∀ c, rest.head? = some c → c ≠ '"' ∧ isNameChar c = false) →
        ByteScanner.skipIdentifier (display name ++ rest) = .ok (display name, rest) ∧
        Scanner.skipIdentifier (display name ++ rest) = .ok (display name, rest) ∧
        read (display name) = name) ∧
    Function.Injective display ∧
    ∀ (t : UserType) (frozen : Bool) (entries : List (String × Text)) (parts : List Text) (inner : Text),
      List.Forall₂ UserType.EntryText parts entries → Spread parts inner →
        let literal := '\x7b' :: (inner ++ ['\x7d'])
        let read := entries.foldlM (t.readField frozen literal) (t.fieldNames.map fun n => (n, none))
        (ColumnType.userDefined t frozen).codec.parse literal =
            read.map (fun fields => some (.userDefined t.keyspace t.name fields)) ∧
          (t.fieldNames.Nodup → ∀ fields, read = .ok fields → t.ReadFrom entries fields) := by
  refine ⟨fun name rest hrest => ?_, display_injective, fun t frozen entries parts inner hparts hspread => ?_⟩
  · have hskip := Scanner.skipIdentifier_display name hrest
    refine ⟨?_, hskip, read_display name⟩
    rw [ByteScanner.skipIdentifier_eq, hskip]
    rfl
  · exact ⟨t.parse_entries frozen hspread hparts,
      fun ht fields hfields => UserType.foldlM_readField ht hfields⟩

/-- A name with a quote and a closing brace in it, and one that only a quoted name can denote. -/
theorem Identifier.display_reads_back_quoted :
    let t : UserType := ⟨"ks", "t", [("b\"\x7d", .native .int), ("B", .native .text)]⟩
    let entries := [("B", "'x'".toList), ("b\"\x7d", ['1'])]
    let fields := [("b\"\x7d", some (.int 1)), ("B", some (.text "x"))]
    Scanner.skipIdentifier "\"b\"\"\x7d\":1".toList = .ok ("\"b\"\"\x7d\"".toList, ":1".toList) ∧
      read "\"b\"\"\x7d\"".toList = "b\"\x7d" ∧
      (ColumnType.userDefined t false).codec.parse "\x7b\"B\":'x',\"b\"\"\x7d\":1\x7d".toList =
        .ok (some (.userDefined "ks" "t" fields)) ∧
      t.ReadFrom entries fields := by
  intro t entries fields
  obtain ⟨hnames, -, hliteral⟩ := Identifier.display_reads_back
  obtain ⟨-, hskip, hread⟩ := hnames "b\"\x7d" ":1".toList
    (fun c hc => by cases hc; exact ⟨by decide, by decide⟩)
  have hone : Scanner.Scanned ['1'] := Scanner.scanned_names (List.cons_ne_nil _ _) (List.forall_mem_singleton.2 rfl)
  have hparts : List.Forall₂ UserType.EntryText
      ["\"B\":'x'".toList, "\"b\"\"\x7d\":1".toList] entries :=
    .cons ⟨Codec.ColonText.tight (display "B") _, (Scanner.scanned_quote ['x']).cut⟩
      (.cons ⟨Codec.ColonText.tight (display "b\"\x7d") _, hone.cut⟩ .nil)
  obtain ⟨hparse, hfields⟩ := hliteral t false entries _ _ hparts
    (.more .nil .nil (List.cons_ne_nil _ _) (.last .nil .nil))
  have hfold : entries.foldlM (t.readField false "\x7b\"B\":'x',\"b\"\"\x7d\":1\x7d".toList)
      (t.fieldNames.map fun n => (n, none)) = .ok fields := by rfl
  exact ⟨hskip, hread, hparse.trans (congrArg _ hfold), hfields (by decide) fields hfold⟩

end Cql
