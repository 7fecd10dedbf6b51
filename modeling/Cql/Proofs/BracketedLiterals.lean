import Cql.Proofs.BracketedText
import Cql.Proofs.ScalarLiterals
import Cql.Proofs.ValueParts
import Cql.Proofs.WireRoundTrip

/-!
Literals in brackets. A collection, a tuple or a user defined value is read back from its literal if its
parts are read back from theirs; a field that is listed more than once is read as it is listed last.
-/

namespace Cql

open Literal (Spaced Spread Whole)
open Scanner (Scanned Ends)

/-! ## Names of fields -/

/-- The names of the fields of a definition differ from each other, and no quote or bracket is in them. -/
structure UserType.Separable (definition : UserType) : Prop where
  nodup : definition.fieldNames.Nodup
  plain : ∀ name ∈ definition.fieldNames, Scanner.Plain name.toList

/-- The definitions inside a type can be told apart in literals by the names of their fields. -/
def ColumnType.Separable (t : ColumnType) : Prop :=
  ∀ definition frozen, Part (fun _ => True) (.userDefined definition frozen) t → definition.Separable

theorem ColumnType.Separable.part {t part : ColumnType} (h : t.Separable)
    (hpart : Part (fun _ => True) part t) : part.Separable :=
  fun definition frozen hinner => h definition frozen (hinner.trans hpart)

/-! ## Elements -/

namespace Entries

theorem skipValue_append {part rest : Text} (h : Scanner.Cut part) (hrest : Ends rest)
    (type : ColumnType) (literal : Text) (reason : Reason) :
    ∃ hlt, skipValue type literal reason (part ++ rest) = .ok (part, ⟨rest, hlt⟩) := by
  have hskip := h rest hrest
  refine ⟨Scanner.skipValue_length_lt hskip, ?_⟩
  unfold skipValue
  split
  · next value rest' hvalue =>
    rw [hskip] at hvalue
    cases hvalue
    rfl
  · next hvalue =>
    rw [hskip] at hvalue
    cases hvalue

theorem skipColon_append {before after rest : Text} (hbefore : Text.Blank before)
    (hafter : Text.Blank after) (hrest : Scanner.Starts rest) (type : ColumnType) (literal : Text)
    (reason : Reason) :
    ∃ hlt, skipColon type literal reason (before ++ ':' :: (after ++ rest)) = .ok ⟨rest, hlt⟩ := by
  have hskip : Scanner.skipBlanks (before ++ ':' :: (after ++ rest)) = ':' :: (after ++ rest) :=
    (Text.trimStart_append hbefore _).trans (Text.trimStart_cons (by decide) _)
  have hstart : Scanner.skipBlanks (after ++ rest) = rest := hrest.trimStart hafter
  refine ⟨by simp; omega, ?_⟩
  unfold skipColon
  split
  · next next hnext =>
    rw [hskip] at hnext
    cases hnext
    simp only [hstart]
  · next hother => exact absurd hskip (hother _)

/-- Entries that each change the state by a step of their own, which may fail. -/
theorem Reads.of_outcomes {σ β : Type} {entry : (t : Text) → σ → Except Fault (σ × Text.After t)}
    {P : Text → β → Prop} (step : σ → β → Except Fault σ)
    (hentry : ∀ part b, P part b → ∀ rest, Ends rest → ∀ state,
      ∃ h, entry (part ++ rest) state = (step state b).map fun next => (next, ⟨rest, h⟩))
    {parts : List Text} {bs : List β} (h : List.Forall₂ P parts bs) (state : σ) :
    Reads entry parts state (bs.foldlM step state) := by
  induction h generalizing state with
  | nil => exact .nil
  | @cons part b parts bs hpart _ ih =>
    rw [List.foldlM_cons]
    have hanswers := fun rest hrest => hentry _ _ hpart rest hrest state
    cases hstep : step state b with
    | ok next =>
      rw [hstep] at hanswers
      exact .cons hanswers (ih next)
    | error f =>
      rw [hstep] at hanswers
      exact .fault fun rest hrest => (hanswers rest hrest).2

theorem Reads.of_steps {σ β : Type} {entry : (t : Text) → σ → Except Fault (σ × Text.After t)}
    {P : Text → β → Prop} {step : β → σ → σ}
    (hentry : ∀ part b, P part b → ∀ rest, Ends rest → ∀ state,
      ∃ h, entry (part ++ rest) state = .ok (step b state, ⟨rest, h⟩))
    {parts : List Text} {bs : List β} (h : List.Forall₂ P parts bs) (state : σ) :
    Reads entry parts state (.ok (bs.foldl (fun state b => step b state) state)) := by
  rw [← foldlM_ok]
  exact .of_outcomes _ hentry h state

/-- Entries that are each put in front of those read before them are collected backwards. -/
theorem Reads.of_pushes {β : Type} {entry : (t : Text) → List β → Except Fault (List β × Text.After t)}
    {P : Text → β → Prop}
    (hentry : ∀ part b, P part b → ∀ rest, Ends rest → ∀ state,
      ∃ h, entry (part ++ rest) state = .ok (b :: state, ⟨rest, h⟩))
    {parts : List Text} {bs : List β} (h : List.Forall₂ P parts bs) :
    Reads entry parts [] (.ok bs.reverse) := by
  have hreverse : bs.foldl (fun state b => b :: state) [] = bs.reverse :=
    List.foldl_flip_cons_eq_append'.trans (List.append_nil _)
  rw [← hreverse]
  exact .of_steps hentry h []

end Entries

namespace Codec

/-- A spaced literal of a present value. -/
def ReadsPart (codec : Codec Value) (part : Text) (u : Option Value) : Prop :=
  Scanned part ∧ codec.parse part = .ok u

theorem ReadsBack.part {codec : Codec Value} {v w : Value} (h : codec.ReadsBack (some v) (some w)) :
    ∃ t, codec.print v = .ok t ∧ Whole t ∧ ∀ part, Spaced .tight t part →
      ∃ u, codec.ReadsPart part (some u) ∧ u.Alike w := by
  obtain ⟨t, hprint, hwhole, hread⟩ := h
  refine ⟨t, hprint, hwhole, fun part hpart => ?_⟩
  obtain ⟨hscanned, o, hparse, halike⟩ := hread part hpart
  cases halike with
  | some halike => exact ⟨_, ⟨hscanned, hparse⟩, halike⟩

/-- Parts that each have a text have texts together, and so do the spaced texts of parts. -/
theorem exists_texts {α β γ : Type} {print : α → Except Fault Text} {P : Text → β → Prop}
    {Q : β → γ → Prop} {vs : List α} {ws : List γ}
    (h : List.Forall₂ (fun v w => ∃ t, print v = .ok t ∧ Whole t ∧
      ∀ part, Spaced .tight t part → ∃ u, P part u ∧ Q u w) vs ws) :
    ∃ texts, vs.mapM print = .ok texts ∧ (∀ t ∈ texts, Whole t) ∧
      ∀ parts, List.Forall₂ (Spaced .tight) texts parts →
        ∃ us, List.Forall₂ P parts us ∧ List.Forall₂ Q us ws := by
  induction h with
  | nil =>
    refine ⟨[], rfl, fun t ht => absurd ht List.not_mem_nil, fun parts hparts => ?_⟩
    cases hparts
    exact ⟨[], .nil, .nil⟩
  | cons hv _ ih =>
    obtain ⟨t, hprint, hwhole, hread⟩ := hv
    obtain ⟨texts, hprints, hwholes, hreads⟩ := ih
    refine ⟨t :: texts, ?_, List.forall_mem_cons.2 ⟨hwhole, hwholes⟩, fun parts hparts => ?_⟩
    · rw [mapM_ok_iff_forall₂] at hprints ⊢
      exact .cons hprint hprints
    · obtain ⟨part, parts, hpart, hlater, rfl⟩ := List.forall₂_cons_left_iff.1 hparts
      obtain ⟨u, hu, halike⟩ := hread part hpart
      obtain ⟨us, hus, halikes⟩ := hreads parts hlater
      exact ⟨u :: us, .cons hu hus, .cons halike halikes⟩

theorem parseElement_ok {codec : Codec Value} {part : Text} {u : Value}
    (h : codec.parse part = .ok (some u)) : Collection.parseElement codec part = .ok u := by
  simp only [Collection.parseElement, h, bind, Except.bind]

/-- Brackets are neither trimmed nor the literal of an absent value. -/
theorem parse_bracketed {α : Type} (codec : Codec α) {o c : Char}
    (hbrackets : Scanner.Brackets o c) (inner : Text) :
    codec.parse (o :: (inner ++ [c])) = (codec.read (o :: (inner ++ [c]))).map some := by
  obtain ⟨-, -, -, -, ho, hc, -⟩ := hbrackets.marks
  have hother : o.toLower ∉ ['n', 'u', 'l', 'l'] := by cases hbrackets <;> decide
  have htrim : Text.trim (o :: (inner ++ [c])) = o :: (inner ++ [c]) := by
    have h := Text.trim_append Text.Blank.nil Text.Blank.nil
      (fun b (hb : (o :: (inner ++ [c])).head? = some b) => by cases hb; exact ho)
      (fun b hb => by rw [← List.cons_append, List.getLast?_concat] at hb; cases hb; exact hc)
    rwa [List.nil_append, List.append_nil] at h
  rw [parse, htrim, if_neg (by simp [Quoted.isNull_eq_false List.mem_cons_self hother])]

/-- Literals in brackets are read back if their spaced parts are. -/
theorem bracketed_readsBack {codec : Codec Value} {v w : Value} {o c : Char}
    (hbrackets : Scanner.Brackets o c) {texts : List Text}
    (hprint : codec.print v = .ok (o :: Text.join [','] texts ++ [c]))
    (hwhole : ∀ t ∈ texts, Whole t)
    (h : ∀ parts inner, List.Forall₂ (Spaced .tight) texts parts → Spread parts inner →
      (∀ part ∈ parts, Scanner.Passes part) ∧
        ∃ u, codec.read (o :: (inner ++ [c])) = .ok u ∧ u.Alike w) :
    codec.ReadsBack (some v) (some w) := by
  refine some_readsBack hprint (Literal.whole_bracketed hbrackets hwhole) fun core hcore => ?_
  obtain ⟨parts, inner, rfl, hparts, hspread⟩ := hcore.bracketed hbrackets hwhole
  obtain ⟨hpasses, hread⟩ := h parts inner hparts hspread
  have hother : o.toLower ∉ ['n', 'u', 'l', 'l'] := by cases hbrackets <;> decide
  exact ⟨hbrackets.scanned (hspread.passes hpasses),
    Quoted.isNull_eq_false List.mem_cons_self hother, hread⟩

/-- A literal of elements is read element by element. -/
theorem items_read (type : ColumnType) (shape : Shape) (make : List Value → Value)
    (items? : Value → Option (List Value)) {opening close : Char} {element : Codec Value}
    (hbrackets : Scanner.Brackets opening close) {parts : List Text} {us : List Value} {inner : Text}
    (hspread : Spread parts inner)
    (hparts : List.Forall₂ (fun part u => element.ReadsPart part (some u)) parts us) :
    (items type shape make items? opening close element).read (opening :: (inner ++ [close])) =
      .ok (make us) := by
  have hscanned : ∀ part ∈ parts, Scanned part := forall_of_forall₂ hparts.flip fun _ _ _ h => h.1
  refine map_ok_iff.2 ⟨us, ?_, rfl⟩
  refine bind_ok_iff.2 ⟨us.reverse, ?_, by rw [List.reverse_reverse]⟩
  refine Entries.read_spread hspread hbrackets (fun part hpart => (hscanned part hpart).head) ?_ rfl
  refine Entries.Reads.of_pushes (fun part u hpart rest hrest state => ?_) hparts
  obtain ⟨hlt, hskip⟩ := Entries.skipValue_append hpart.1.cut hrest type
    (opening :: (inner ++ [close])) .invalidElement
  refine ⟨hlt, ?_⟩
  simp only [hskip, parseElement_ok hpart.2, bind, Except.bind]

theorem items_readsBack {type : ColumnType} {shape : Shape} {make : List Value → Value}
    {items? : Value → Option (List Value)} {opening close : Char} {element : Codec Value}
    (hbrackets : Scanner.Brackets opening close) {v w : Value} {vs ws : List Value}
    (hitems : items? v = some vs)
    (helements : List.Forall₂ (fun v w => element.ReadsBack (some v) (some w)) vs ws)
    (hmake : ∀ us, List.Forall₂ Value.Alike us ws → (make us).Alike w) :
    (items type shape make items? opening close element).ReadsBack (some v) (some w) := by
  obtain ⟨texts, hprint, hwhole, hreads⟩ := exists_texts (helements.imp fun _ _ h => h.part)
  have hliteral : (items type shape make items? opening close element).print v =
      .ok (opening :: Text.join [','] texts ++ [close]) := by
    simp only [items, hitems, Collection.printItems, hprint, bind, Except.bind]
  refine bracketed_readsBack hbrackets hliteral hwhole fun parts inner hparts hspread => ?_
  obtain ⟨us, hus, halike⟩ := hreads parts hparts
  have hscanned : ∀ part ∈ parts, Scanned part := forall_of_forall₂ hus.flip fun _ _ _ h => h.1
  exact ⟨fun part hpart => (hscanned part hpart).passes, make us,
    items_read _ _ _ _ hbrackets hspread hus, hmake us halike⟩

theorem list_readsBack {element : Codec Value} {vs ws : List Value} (frozen : Bool)
    (h : List.Forall₂ (fun v w => element.ReadsBack (some v) (some w)) vs ws) :
    (list element frozen).ReadsBack (some (.list vs)) (some (.list ws)) :=
  items_readsBack .square rfl h fun _ halike => .list halike

theorem set_readsBack {element : Codec Value} {vs ws : List Value} (frozen : Bool)
    (h : List.Forall₂ (fun v w => element.ReadsBack (some v) (some w)) vs ws) :
    (set element frozen).ReadsBack (some (.set vs)) (some (.set ws)) :=
  items_readsBack .curly rfl h fun _ halike => .set halike

/-! ## Entries with a colon -/

/-- Two texts with a colon between them and blanks around it. -/
def ColonText (part left right : Text) : Prop :=
  ∃ before after, Text.Blank before ∧ Text.Blank after ∧
    part = left ++ (before ++ ':' :: (after ++ right))

theorem ColonText.tight (left right : Text) : ColonText (left ++ ':' :: right) left right :=
  ⟨[], [], .nil, .nil, rfl⟩

theorem whole_colon {left right : Text} (hleft : Literal.State.tight.run left = .tight)
    (hright : Whole right) : Whole (left ++ ':' :: right) := by
  refine ⟨by simp, ?_⟩
  rw [Literal.State.run_append, hleft, Literal.State.run_cons]
  exact hright.run_loose

theorem spaced_colon {left right part : Text} (hleft : Literal.State.tight.run left = .tight)
    (h : Spaced .tight (left ++ ':' :: right) part) :
    ∃ l r, Spaced .tight left l ∧ Spaced .tight right r ∧ ColonText part l r := by
  obtain ⟨l, w, rfl, hl, hw⟩ := h.append
  rw [hleft] at hw
  obtain ⟨before, v, hbefore, rfl, hv⟩ := hw.cons_gap
  obtain ⟨after, r, hafter, rfl, hr⟩ := hv.of_loose
  exact ⟨l, r, hl, hr, before, after, hbefore, hafter, rfl⟩

theorem ColonText.starts {part left right : Text} (h : ColonText part left right)
    (hleft : Scanner.Starts left) : Scanner.Starts part := by
  obtain ⟨before, after, _, _, rfl⟩ := h
  exact hleft.append _

theorem ColonText.passes {part left right : Text} (h : ColonText part left right)
    (hleft : Scanner.Passes left) (hright : Scanner.Passes right) : Scanner.Passes part := by
  obtain ⟨before, after, hbefore, hafter, rfl⟩ := h
  intro d hd rest hrest
  have hcolon : ∀ t, Ends (':' :: t) := fun t => Ends.cons (.inl rfl)
  have hplain : Scanner.Plain [':'] := List.forall_mem_singleton.2 (by decide)
  rw [List.append_assoc, List.append_assoc, List.cons_append, List.append_assoc,
    hleft d hd _ (Ends.blank_append hbefore (hcolon _)),
    Scanner.afterValue_plain hd (Literal.plain_blank hbefore), ← List.singleton_append,
    Scanner.afterValue_plain hd hplain, Scanner.afterValue_plain hd (Literal.plain_blank hafter),
    hright d hd rest hrest]

/-- The literal of a key and a value is read as an entry like the given one. -/
def ReadsEntry (key value : Codec Value) (part : Text) (u : Value × Value) : Prop :=
  ∃ left right, ColonText part left right ∧ key.ReadsPart left (some u.1) ∧
    value.ReadsPart right (some u.2)

/-- The literal of an entry of a map. -/
def printEntry (key value : Codec Value) (e : Value × Value) : Except Fault Text := do
  let k ← key.print e.1
  let v ← value.print e.2
  .ok (k ++ ':' :: v)

theorem entry_part {key value : Codec Value} {v w : Value × Value}
    (h : key.ReadsBack (some v.1) (some w.1) ∧ value.ReadsBack (some v.2) (some w.2)) :
    ∃ t, printEntry key value v = .ok t ∧ Whole t ∧ ∀ part, Spaced .tight t part →
      ∃ u, ReadsEntry key value part u ∧ u.1.Alike w.1 ∧ u.2.Alike w.2 := by
  obtain ⟨left, hprintLeft, hwholeLeft, hreadLeft⟩ := h.1.part
  obtain ⟨right, hprintRight, hwholeRight, hreadRight⟩ := h.2.part
  refine ⟨left ++ ':' :: right, ?_, whole_colon hwholeLeft.2 hwholeRight, fun part hpart => ?_⟩
  · simp only [printEntry, hprintLeft, hprintRight, bind, Except.bind]
  · obtain ⟨l, r, hl, hr, hcolon⟩ := spaced_colon hwholeLeft.2 hpart
    obtain ⟨u, hu, hlike⟩ := hreadLeft l hl
    obtain ⟨u', hu', hlike'⟩ := hreadRight r hr
    exact ⟨(u, u'), ⟨l, r, hcolon, hu, hu'⟩, hlike, hlike'⟩

theorem map_readsBack {key value : Codec Value} (frozen : Bool) {vs ws : List (Value × Value)}
    (h : List.Forall₂ (fun v w => key.ReadsBack (some v.1) (some w.1) ∧
      value.ReadsBack (some v.2) (some w.2)) vs ws) :
    (map key value frozen).ReadsBack (some (.map vs)) (some (.map ws)) := by
  obtain ⟨texts, hprint, hwhole, hreads⟩ := exists_texts (h.imp fun _ _ => entry_part)
  have hliteral : (map key value frozen).print (.map vs) =
      .ok ('\x7b' :: Text.join [','] texts ++ ['\x7d']) :=
    bind_ok_iff.2 ⟨texts, hprint, rfl⟩
  refine bracketed_readsBack .curly hliteral hwhole fun parts inner hparts hspread => ?_
  obtain ⟨us, hus, halike⟩ := hreads parts hparts
  have hstarts : ∀ part ∈ parts, Scanner.Starts part ∧ Scanner.Passes part := by
    refine forall_of_forall₂ hus.flip fun u _ part hentry => ?_
    obtain ⟨left, right, hcolon, hleft, hright⟩ := hentry
    exact ⟨hcolon.starts hleft.1.head, hcolon.passes hleft.1.passes hright.1.passes⟩
  have hlike : (Value.map us).Alike (.map ws) := by
    refine .map ?_ ?_
    · exact List.forall₂_map_left_iff.2 (List.forall₂_map_right_iff.2 (halike.imp fun _ _ h => h.1))
    · exact List.forall₂_map_left_iff.2 (List.forall₂_map_right_iff.2 (halike.imp fun _ _ h => h.2))
  refine ⟨fun part hpart => (hstarts part hpart).2, .map us, ?_, hlike⟩
  refine bind_ok_iff.2 ⟨us.reverse, ?_, by rw [List.reverse_reverse]⟩
  refine Entries.read_spread hspread .curly (fun part hpart => (hstarts part hpart).1) ?_ rfl
  refine Entries.Reads.of_pushes (fun part u hpart rest hrest state => ?_) hus
  obtain ⟨left, right, ⟨before, after, hbefore, hafter, rfl⟩, hleft, hright⟩ := hpart
  have hends : ∀ t, Ends (':' :: t) := fun t => Ends.cons (.inl rfl)
  generalize hliteral : '\x7b' :: (inner ++ ['\x7d']) = literal
  generalize hdepth : ColumnType.map key.type value.type frozen = type
  obtain ⟨_, hskipKey⟩ := Entries.skipValue_append hleft.1.cut
    (Ends.blank_append hbefore (hends (after ++ (right ++ rest)))) type literal .invalidKey
  obtain ⟨_, hskipColon⟩ := Entries.skipColon_append hbefore hafter (hright.1.head.append rest) type
    literal .missingKeyColon
  obtain ⟨_, hskipValue⟩ := Entries.skipValue_append hright.1.cut hrest type literal .invalidEntry
  rw [List.append_assoc, List.append_assoc, List.cons_append, List.append_assoc]
  refine ⟨by simp; omega, ?_⟩
  simp only [hskipKey, hskipColon, hskipValue, parseElement_ok hleft.2, parseElement_ok hright.2, bind,
    Except.bind]

/-! ## Components -/

/-- Components that are read back each are read back one after the other. `done` holds those in front
of them. -/
theorem slots_readBack {ts : List ColumnType} {items expected : List (Option Value)} {k : Nat}
    (h : ∀ (i : Nat) (t : ColumnType), ts[i]? = some t →
      t.codec.ReadsBack items[k + i]?.join (expected[k + i]?.join.map t.canonical)) :
    ∃ texts, ((slotsFrom k (ColumnType.codecs ts)).mapM fun c => c.format items) = .ok texts ∧
      (∀ t ∈ texts, Whole t) ∧ ∀ parts, List.Forall₂ (Spaced .tight) texts parts →
        (∀ part ∈ parts, Scanned part) ∧
          ∃ us, List.Forall₂ (Option.Rel Value.Alike) us
              (ColumnType.canonicalItems ts (expected.drop k)) ∧
            ∀ done, done.length = k → Component.Reads (slotsFrom k (ColumnType.codecs ts)) parts
              (done ++ blanks (ColumnType.codecs ts)) (done ++ us) := by
  induction ts generalizing k with
  | nil =>
    refine ⟨[], rfl, fun t ht => absurd ht List.not_mem_nil, fun parts hparts => ?_⟩
    cases hparts
    exact ⟨fun part hpart => absurd hpart List.not_mem_nil, [], .nil, fun done _ => .nil⟩
  | cons t ts ih =>
    obtain ⟨text, hformat, hwhole, hread⟩ := h 0 t rfl
    obtain ⟨texts, hformats, hwholes, hreads⟩ := ih (k := k + 1) fun i t' ht => by
      have hnext := h (i + 1) t' ht
      rwa [show k + (i + 1) = k + 1 + i by omega] at hnext
    refine ⟨text :: texts, ?_, List.forall_mem_cons.2 ⟨hwhole, hwholes⟩, fun parts hparts => ?_⟩
    · rw [slotsFrom_cons, mapM_ok_iff_forall₂] at *
      exact .cons hformat hformats
    · obtain ⟨part, parts, hpart, hlater, rfl⟩ := List.forall₂_cons_left_iff.1 hparts
      obtain ⟨hscanned, u, hparse, halike⟩ := hread part hpart
      obtain ⟨hscanneds, us, halikes, hcomponents⟩ := hreads parts hlater
      refine ⟨List.forall_mem_cons.2 ⟨hscanned, hscanneds⟩, u :: us, ?_, fun done hdone => ?_⟩
      · rw [ColumnType.canonicalItems, List.head?_drop, List.tail_drop]
        exact .cons halike halikes
      · subst hdone
        have hsplit : done ++ u :: us = (done ++ [u]) ++ us := by simp
        rw [slotsFrom_cons, hsplit]
        refine .cons (map_ok_iff.2 ⟨u, hparse, rfl⟩) ?_
        dsimp only
        rw [set_blanks]
        exact hcomponents (done ++ [u]) (by simp)

theorem tuple_readsBack {ts : List ColumnType} {items expected : List (Option Value)}
    (h : ∀ (i : Nat) (t : ColumnType), ts[i]? = some t →
      t.codec.ReadsBack items[i]?.join (expected[i]?.join.map t.canonical)) :
    (tupleValue (ColumnType.codecs ts)).ReadsBack (some (.tuple items))
      (some (.tuple (ColumnType.canonicalItems ts expected))) := by
  have hzero : ∀ (i : Nat) (t : ColumnType), ts[i]? = some t →
      t.codec.ReadsBack items[0 + i]?.join (expected[0 + i]?.join.map t.canonical) := by
    intro i t ht
    rw [Nat.zero_add]
    exact h i t ht
  obtain ⟨texts, hprint, hwhole, hreads⟩ := slots_readBack hzero
  have hliteral : (tupleValue (ColumnType.codecs ts)).print (.tuple items) =
      .ok ('(' :: Text.join [','] texts ++ [')']) :=
    bind_ok_iff.2 ⟨texts, hprint, rfl⟩
  refine bracketed_readsBack .round hliteral hwhole fun parts inner hparts hspread => ?_
  obtain ⟨hscanned, us, halike, hcomponents⟩ := hreads parts hparts
  refine ⟨fun part hpart => (hscanned part hpart).passes, .tuple us, ?_, .tuple halike⟩
  exact map_ok_iff.2 ⟨us, Component.readAll_spread hspread hscanned (hcomponents [] rfl), rfl⟩

end Codec

/-! ## Fields -/

namespace UserType

theorem zip_fieldCodecs (t : UserType) :
    t.fieldNames.zip t.fieldCodecs = t.fields.map fun f => (f.1, f.2.codec) := by
  rw [fieldCodecs_eq, ColumnType.codecs_eq, List.map_map, fieldNames, List.zip_map']
  rfl

theorem fieldCodec?_of_mem {t : UserType} (hnodup : t.fieldNames.Nodup) {name : String}
    {type : ColumnType} (h : (name, type) ∈ t.fields) :
    t.fieldCodec? t.fieldCodecs name = some type.codec := by
  have hnames : ((t.fieldNames.zip t.fieldCodecs).map (·.1)).Nodup := by
    rw [zip_fieldCodecs, List.map_map]
    exact hnodup
  have hmem : (name, type.codec) ∈ t.fieldNames.zip t.fieldCodecs := by
    rw [zip_fieldCodecs]
    exact List.mem_map.2 ⟨_, h, rfl⟩
  rw [fieldCodec?, find?_of_nodup hnames hmem]
  rfl

/-- Setting the field of a name changes nothing else. -/
theorem setField_map {names : List String} (hnodup : names.Nodup) (name : String) (o : Option Value)
    (g : String → Option Value) :
    setField name o (names.map fun n => (n, g n)) =
      names.map fun n => (n, Function.update g name o n) := by
  induction names with
  | nil => rfl
  | cons n names ih =>
    obtain ⟨hn, hnodup⟩ := List.nodup_cons.1 hnodup
    rw [List.map_cons, setField, List.map_cons]
    by_cases hname : n = name
    · subst hname
      have hothers : (names.map fun m => (m, Function.update g n o m)) = names.map fun m => (m, g m) :=
        List.map_congr_left fun m hm => by
          have hne : m ≠ n := by
            rintro rfl
            exact hn hm
          rw [Function.update_of_ne hne]
      rw [if_pos (beq_self_eq_true n), Function.update_self, hothers]
    · rw [if_neg (by simpa using hname), Function.update_of_ne hname, ih hnodup]

theorem foldl_setField {names : List String} (hnodup : names.Nodup) (us : List (String × Option Value))
    (g : String → Option Value) :
    us.foldl (fun fields u => setField u.1 u.2 fields) (names.map fun n => (n, g n)) =
      names.map fun n => (n, us.foldl (fun g u => Function.update g u.1 u.2) g n) := by
  induction us generalizing g with
  | nil => rfl
  | cons u us ih => rw [List.foldl_cons, setField_map hnodup, ih, List.foldl_cons]

/-- Fields that are set one after the other are as they were set last, and the others as they were before. -/
theorem foldl_update {us fields : List (String × Option Value)}
    {R : String → Option Value → Option Value → Prop}
    (h : List.Forall₂ (fun u f => u.1 = f.1 ∧ R f.1 u.2 f.2) us fields) (g : String → Option Value)
    (name : String) (hg : R name (g name) none) :
    R name (us.foldl (fun g u => Function.update g u.1 u.2) g name) (fieldValue fields.reverse name) := by
  -- the field that is set last stands in front
  rw [List.foldl_eq_foldr_reverse]
  rw [← List.forall₂_reverse_iff] at h
  generalize us.reverse = us at h ⊢
  generalize fields.reverse = fields at h ⊢
  induction h with
  | nil => exact hg
  | @cons u f us fields hhead _ ih =>
    obtain ⟨heq, hrelated⟩ := hhead
    rw [List.foldr_cons, heq]
    by_cases hname : f.1 = name
    · subst hname
      rw [Function.update_self, fieldValue, List.find?_cons_of_pos (by simp)]
      exact hrelated
    · rw [Function.update_of_ne (Ne.symm hname), fieldValue,
        List.find?_cons_of_neg (by simpa using hname)]
      exact ih

theorem starts_display (name : String) : Scanner.Starts (Identifier.display name) := by
  rw [Identifier.display_eq]
  split
  · next hplain =>
    exact (Scanner.scanned_names (Identifier.isPlain_spec hplain).1
      (Identifier.isPlain_isNameChar hplain)).head
  · exact ⟨'"', _, rfl, by decide, by decide⟩

/-- An entry of a literal: the name of a field and a value, with a colon between them. -/
def EntryText (part : Text) (entry : String × Text) : Prop :=
  Codec.ColonText part (Identifier.display entry.1) entry.2 ∧ Scanner.Cut entry.2

/-- Reads the value of the field that has the name of an entry, and only of that one. -/
def readField (t : UserType) (frozen : Bool) (literal : Text) (fields : List (String × Option Value))
    (entry : String × Text) : Except Fault (List (String × Option Value)) :=
  match t.fieldCodec? t.fieldCodecs entry.1 with
  | none => .error ⟨.userDefined t frozen, .unparsable literal .unknownField⟩
  | some codec => (codec.parse entry.2).map fun value => setField entry.1 value fields

/-- A literal of entries is read entry by entry, each one under the name that it displays. -/
theorem codec_read (t : UserType) (frozen : Bool) {β : Type} {P : Text → β → Prop}
    (step : List (String × Option Value) → β → Except Fault (List (String × Option Value)))
    {parts : List Text} {bs : List β} {inner : Text} (hspread : Spread parts inner)
    (hparts : List.Forall₂ P parts bs)
    (hstep : ∀ part b, P part b → ∃ name text, EntryText part (name, text) ∧
      ∀ fields, step fields b =
        t.readField frozen ('\x7b' :: (inner ++ ['\x7d'])) fields (name, text)) :
    (t.codec frozen t.fieldCodecs).read ('\x7b' :: (inner ++ ['\x7d'])) =
      (bs.foldlM step (t.fieldNames.map fun n => (n, none))).map
        (.userDefined t.keyspace t.name) := by
  have hstarts : ∀ part ∈ parts, Scanner.Starts part := by
    refine forall_of_forall₂ hparts.flip fun b _ part hpart => ?_
    obtain ⟨name, text, ⟨hcolon, -⟩, -⟩ := hstep part b hpart
    exact hcolon.starts (starts_display name)
  show (Entries.read _ _ _ _ _ _ >>= fun fields => _) = _
  rw [Entries.read_spread hspread .curly hstarts (.of_outcomes step ?entry hparts _) rfl]
  · cases bs.foldlM step (t.fieldNames.map fun n => (n, none)) <;> rfl
  intro part b hpart rest hrest state
  obtain ⟨name, text, ⟨⟨before, after, hbefore, hafter, rfl⟩, hcut⟩, hfields⟩ := hstep part b hpart
  have hends : Ends (before ++ ':' :: (after ++ (text ++ rest))) :=
    Ends.blank_append hbefore (Ends.cons (.inl rfl))
  have hskip := Scanner.skipIdentifier_display name fun c hc =>
    ⟨fun hquote => hends.not_mark (.inr rfl) (hquote ▸ hc), hends.isNameChar hc⟩
  rw [hfields, readField]
  generalize '\x7b' :: (inner ++ ['\x7d']) = literal
  generalize ColumnType.userDefined t frozen = type
  obtain ⟨_, hskipColon⟩ := Entries.skipColon_append hbefore hafter (hcut.starts.append rest) type
    literal .missingFieldColon
  obtain ⟨_, hskipValue⟩ := Entries.skipValue_append hcut hrest type literal .invalidField
  rw [List.append_assoc, List.append_assoc, List.cons_append, List.append_assoc]
  refine ⟨by simp; omega, ?_⟩
  split
  · next hfault =>
    rw [hskip] at hfault
    cases hfault
  · next written more hwritten =>
    rw [hskip] at hwritten
    cases hwritten
    rw [Identifier.read_display]
    cases hcodec : t.fieldCodec? t.fieldCodecs name with
    | none =>
      simp only [hcodec]
      rfl
    | some codec =>
      simp only [hcodec, hskipColon, hskipValue, bind, Except.bind]
      cases codec.parse text <;> rfl

theorem parse_entries (t : UserType) (frozen : Bool) {entries : List (String × Text)} {parts : List Text}
    {inner : Text} (hspread : Spread parts inner) (hparts : List.Forall₂ EntryText parts entries) :
    (ColumnType.userDefined t frozen).codec.parse ('\x7b' :: (inner ++ ['\x7d'])) =
      (entries.foldlM (t.readField frozen ('\x7b' :: (inner ++ ['\x7d'])))
        (t.fieldNames.map fun n => (n, none))).map
        fun fields => some (.userDefined t.keyspace t.name fields) := by
  have hread := t.codec_read frozen (t.readField frozen ('\x7b' :: (inner ++ ['\x7d']))) hspread hparts
    fun _ entry hentry => ⟨entry.1, entry.2, hentry, fun _ => rfl⟩
  rw [Codec.parse_bracketed _ .curly, ColumnType.codec, hread]
  cases entries.foldlM (t.readField frozen ('\x7b' :: (inner ++ ['\x7d'])))
    (t.fieldNames.map fun n => (n, none)) <;> rfl

/-- The literal of a field is read as a field like the given one. -/
def ReadsField (t : UserType) (part : Text) (u : String × Option Value) : Prop :=
  ∃ codec right, t.fieldCodec? t.fieldCodecs u.1 = some codec ∧ Scanner.Plain u.1.toList ∧
    Codec.ColonText part (Identifier.display u.1) right ∧ codec.ReadsPart right u.2

/-- The literal of a field. -/
def printField (t : UserType) (frozen : Bool) (f : String × Option Value) : Except Fault Text := do
  match t.fieldCodec? t.fieldCodecs f.1 with
  | none => .error ⟨.userDefined t frozen, .incompatible .knownFields⟩
  | some codec => do
    let text ← codec.format f.2
    .ok (Identifier.display f.1 ++ ':' :: text)

theorem field_part {t : UserType} (ht : t.Separable) (frozen : Bool) {name : String}
    {type : ColumnType} (hmem : (name, type) ∈ t.fields) {o expected : Option Value}
    (h : type.codec.ReadsBack o (expected.map type.canonical)) :
    ∃ text, t.printField frozen (name, o) = .ok text ∧ Whole text ∧
      ∀ part, Spaced .tight text part → ∃ u, t.ReadsField part u ∧ u.1 = name ∧
        ∀ type', (name, type') ∈ t.fields →
          Option.Rel Value.Alike u.2 (expected.map type'.canonical) := by
  obtain ⟨right, hformat, hwhole, hread⟩ := h
  obtain ⟨hsolid, hrun⟩ := Literal.rigid_name name
  have hcodec := fieldCodec?_of_mem ht.nodup hmem
  refine ⟨Identifier.display name ++ ':' :: right, ?_, Codec.whole_colon hrun hwhole,
    fun part hpart => ?_⟩
  · simp only [printField, hcodec, hformat, bind, Except.bind]
  · obtain ⟨l, r, hl, hr, hcolon⟩ := Codec.spaced_colon hrun hpart
    cases hsolid.spaced_eq hl
    obtain ⟨hscanned, u, hparse, halike⟩ := hread r hr
    have hplain := ht.plain name (List.mem_map_of_mem hmem)
    refine ⟨(name, u), ⟨type.codec, r, hcodec, hplain, hcolon, hscanned, hparse⟩, rfl, ?_⟩
    intro type' hmem'
    -- another field of the name would be the same one
    have hsame := (find?_of_nodup ht.nodup hmem).symm.trans (find?_of_nodup ht.nodup hmem')
    cases hsame
    exact halike

theorem plain_display {name : String} (h : Scanner.Plain name.toList) :
    Scanner.Plain (Identifier.display name) := by
  rw [Identifier.display_eq]
  split
  · exact h
  · have hdouble : ∀ c ∈ Identifier.double name.toList, c ∈ name.toList := by
      intro c hc
      obtain ⟨d, hd, hcd⟩ := List.mem_flatMap.1 hc
      split at hcd <;> simp at hcd <;> exact hcd ▸ hd
    intro c hc
    rw [Identifier.quoted, List.cons_append, List.mem_cons, List.mem_append,
      List.mem_singleton] at hc
    rcases hc with rfl | hc | rfl
    · decide
    · exact h c (hdouble c hc)
    · decide

theorem ReadsField.part {t : UserType} {part : Text} {u : String × Option Value}
    (h : t.ReadsField part u) : Scanner.Starts part ∧ Scanner.Passes part := by
  obtain ⟨codec, right, _, hplain, hcolon, hright⟩ := h
  exact ⟨hcolon.starts (starts_display u.1),
    hcolon.passes (plain_display hplain).passes hright.1.passes⟩

/-- Fields that were read make up the value, in the order of the definition and each as it was read last. -/
theorem alike_fields {t : UserType} (ht : t.Separable) {us fields : List (String × Option Value)}
    (h : List.Forall₂ (fun u f => u.1 = f.1 ∧
      ∀ type, (f.1, type) ∈ t.fields → Option.Rel Value.Alike u.2 (f.2.map type.canonical)) us fields) :
    (Value.userDefined t.keyspace t.name
      (us.foldl (fun fields u => setField u.1 u.2 fields) (t.fieldNames.map fun n => (n, none)))).Alike
      (.userDefined t.keyspace t.name (t.canonicalFields fields.reverse)) := by
  rw [foldl_setField ht.nodup us fun _ => none, canonicalFields_eq, fieldNames]
  refine .userDefined (by simp [Function.comp_def]) ?_
  simp only [List.map_map, List.forall₂_map_left_iff, List.forall₂_map_right_iff, List.forall₂_same]
  intro f hf
  have hupdate := foldl_update (R := fun name u o => ∀ type : ColumnType, (name, type) ∈ t.fields →
    Option.Rel Value.Alike u (o.map type.canonical)) h (fun _ => none) f.1 fun _ _ => .none
  exact hupdate f.2 hf

/-- A field of the value and the field that its literal is read as. -/
def FieldReadsBack (t : UserType) (f expected : String × Option Value) : Prop :=
  f.1 = expected.1 ∧ ∃ type, (f.1, type) ∈ t.fields ∧
    type.codec.ReadsBack f.2 (expected.2.map type.canonical)

theorem userDefined_readsBack {t : UserType} (ht : t.Separable) (frozen : Bool)
    {keyspace name : String} {fields expected : List (String × Option Value)}
    (h : List.Forall₂ t.FieldReadsBack fields expected) :
    (t.codec frozen t.fieldCodecs).ReadsBack (some (.userDefined keyspace name fields))
      (some (.userDefined t.keyspace t.name (t.canonicalFields expected.reverse))) := by
  have hparts : List.Forall₂ (fun f g => ∃ text, t.printField frozen f = .ok text ∧ Whole text ∧
      ∀ part, Spaced .tight text part → ∃ u, t.ReadsField part u ∧ u.1 = g.1 ∧
        ∀ type, (g.1, type) ∈ t.fields → Option.Rel Value.Alike u.2 (g.2.map type.canonical))
      fields expected :=
    h.imp fun f g hback => by
      obtain ⟨heq, type, hmem, hread⟩ := hback
      rw [← heq]
      exact field_part ht frozen hmem hread
  obtain ⟨texts, hprint, hwhole, hreads⟩ := Codec.exists_texts hparts
  have hliteral : (t.codec frozen t.fieldCodecs).print (.userDefined keyspace name fields) =
      .ok ('\x7b' :: Text.join [','] texts ++ ['\x7d']) :=
    bind_ok_iff.2 ⟨texts, hprint, rfl⟩
  refine Codec.bracketed_readsBack .curly hliteral hwhole fun parts inner hparts hspread => ?_
  obtain ⟨us, hus, halike⟩ := hreads parts hparts
  have hpart : ∀ part ∈ parts, Scanner.Starts part ∧ Scanner.Passes part :=
    forall_of_forall₂ hus.flip fun _ _ _ hfield => ReadsField.part hfield
  refine ⟨fun part hmem => (hpart part hmem).2, _, ?_, alike_fields ht halike⟩
  rw [codec_read t frozen (fun fields u => .ok (setField u.1 u.2 fields)) hspread hus, foldlM_ok]
  · rfl
  · rintro part u ⟨codec, right, hcodec, _, hcolon, hright⟩
    refine ⟨u.1, right, ⟨hcolon, hright.1.cut⟩, fun fields => ?_⟩
    rw [readField, hcodec]
    dsimp only
    rw [hright.2]
    rfl

end UserType

end Cql
