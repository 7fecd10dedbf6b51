import Cql.Codec.Collection
import Cql.Codec.Composite
import Cql.Proofs.ValueScan
import Mathlib.Data.List.Forall2

/-!
Parts in brackets, with commas between them and blanks around them. The blanks of a spaced literal are
found between its parts again, and the readers of entries and of components take part after part.
-/

namespace Cql.Literal

open Text (Blank)
open Scanner (Ends Passes Starts Plain)

/-- Parts with commas between them and blanks around each. -/
inductive Spread : List Text → Text → Prop where
  | none {gap : Text} (hgap : Blank gap) : Spread [] gap
  | last {before part after : Text} (hbefore : Blank before) (hafter : Blank after) :
    Spread [part] (before ++ (part ++ after))
  | more {before part after t : Text} {parts : List Text} (hbefore : Blank before)
    (hafter : Blank after) (hparts : parts ≠ []) (h : Spread parts t) :
    Spread (part :: parts) (before ++ (part ++ (after ++ ',' :: t)))

theorem Whole.loose_append {t rest u : Text} (ht : Whole t) (h : Spaced .loose (t ++ rest) u) :
    ∃ gap v w, Blank gap ∧ u = gap ++ (v ++ w) ∧ Spaced .tight t v ∧ Spaced .tight rest w := by
  obtain ⟨v, w, rfl, hv, hw⟩ := h.append
  obtain ⟨gap, core, hgap, rfl, hcore⟩ := hv.of_loose
  rw [ht.run_loose] at hw
  exact ⟨gap, core, w, hgap, by rw [List.append_assoc], hcore, hw⟩

/-- The parts of a spaced literal are the spaced parts. -/
theorem Spaced.spread {texts : List Text} (htexts : ∀ t ∈ texts, Whole t) {close : Char} {u : Text}
    (h : Spaced .loose (Text.join [','] texts ++ [close]) u) :
    ∃ parts inner, u = inner ++ [close] ∧ List.Forall₂ (Spaced .tight) texts parts ∧
      Spread parts inner := by
  have hend : ∀ {s : State} {w : Text}, Spaced s [close] w → ∃ gap, Blank gap ∧ w = gap ++ [close] := by
    intro s w hw
    obtain ⟨gap, v, hgap, rfl, hv⟩ := hw.cons_gap
    cases hv
    exact ⟨gap, hgap, rfl⟩
  induction texts generalizing u with
  | nil =>
    obtain ⟨gap, hgap, rfl⟩ := hend h
    exact ⟨[], gap, rfl, .nil, .none hgap⟩
  | cons t texts ih =>
    obtain ⟨ht, htexts⟩ := List.forall_mem_cons.1 htexts
    cases texts with
    | nil =>
      obtain ⟨before, part, w, hbefore, rfl, hpart, hw⟩ := ht.loose_append h
      obtain ⟨after, hafter, rfl⟩ := hend hw
      exact ⟨[part], before ++ (part ++ after), by simp, .cons hpart .nil, .last hbefore hafter⟩
    | cons t' texts =>
      rw [Text.join, List.append_assoc, List.append_assoc, List.singleton_append] at h
      · obtain ⟨before, part, w, hbefore, rfl, hpart, hw⟩ := ht.loose_append h
        obtain ⟨after, v, hafter, rfl, hv⟩ := hw.cons_gap
        obtain ⟨parts, inner, rfl, hparts, hspread⟩ := ih htexts hv
        have hne : parts ≠ [] := by
          rintro rfl
          cases hparts
        exact ⟨part :: parts, before ++ (part ++ (after ++ ',' :: inner)), by simp,
          .cons hpart hparts, .more hbefore hafter hne hspread⟩
      · exact List.cons_ne_nil _ _

/-- Parts between brackets are found again. -/
theorem Spaced.bracketed {o c : Char} (hbrackets : Scanner.Brackets o c) {texts : List Text}
    (htexts : ∀ t ∈ texts, Whole t) {u : Text}
    (h : Spaced .tight (o :: Text.join [','] texts ++ [c]) u) :
    ∃ parts inner, u = o :: (inner ++ [c]) ∧ List.Forall₂ (Spaced .tight) texts parts ∧
      Spread parts inner := by
  have hopening : State.tight.allows o = false ∧ State.tight.step o = .loose := by
    cases hbrackets <;> exact ⟨rfl, rfl⟩
  obtain ⟨v, rfl, hv⟩ := h.cons_tight hopening.1
  rw [hopening.2] at hv
  obtain ⟨parts, inner, rfl, hparts, hspread⟩ := hv.spread htexts
  exact ⟨parts, inner, rfl, hparts, hspread⟩

theorem place_join {texts : List Text} (htexts : ∀ t ∈ texts, Whole t) :
    (State.loose.run (Text.join [','] texts)).place = .outside := by
  induction texts with
  | nil => rfl
  | cons t texts ih =>
    obtain ⟨ht, htexts⟩ := List.forall_mem_cons.1 htexts
    cases texts with
    | nil => exact congrArg State.place ht.run_loose
    | cons t' texts =>
      rw [Text.join, State.run_append, State.run_append, ht.run_loose]
      · exact ih htexts
      · exact List.cons_ne_nil _ _

theorem whole_bracketed {o c : Char} (hbrackets : Scanner.Brackets o c) {texts : List Text}
    (htexts : ∀ t ∈ texts, Whole t) : Whole (o :: Text.join [','] texts ++ [c]) := by
  have hopening : State.tight.step o = .loose := by cases hbrackets <;> rfl
  have hclosing : ∀ s : State, s.place = .outside → s.step c = .tight := by
    rintro ⟨place, edge⟩ rfl
    cases hbrackets <;> rfl
  refine ⟨List.cons_ne_nil _ _, ?_⟩
  rw [List.cons_append, State.run_cons, hopening, State.run_append]
  exact hclosing _ (place_join htexts)

theorem plain_blank {t : Text} (h : Blank t) : Plain t := by
  intro c hc
  have hne : ∀ d, Text.isBlank d = false → c ≠ d := by
    rintro d hd rfl
    rw [h c hc] at hd
    cases hd
  simp [isOpening, isClosing, hne '\x27' (by decide), hne '(' (by decide), hne '[' (by decide),
    hne '\x7b' (by decide), hne ')' (by decide), hne ']' (by decide), hne '\x7d' (by decide)]

theorem Spread.starts {parts : List Text} {inner : Text} (h : Spread parts inner) (hne : parts ≠ [])
    (hparts : ∀ part ∈ parts, Starts part) (rest : Text) : Starts (Text.trimStart (inner ++ rest)) := by
  cases h with
  | none => exact absurd rfl hne
  | last hbefore _ =>
    have hstart := (hparts _ List.mem_cons_self).append
    rw [List.append_assoc, List.append_assoc, (hstart _).trimStart hbefore]
    exact hstart _
  | more hbefore _ _ _ =>
    have hstart := (hparts _ List.mem_cons_self).append
    rw [List.append_assoc, List.append_assoc, (hstart _).trimStart hbefore]
    exact hstart _

theorem Spread.passes {parts : List Text} {inner : Text} (h : Spread parts inner)
    (hparts : ∀ part ∈ parts, Passes part) : Passes inner := by
  induction h with
  | none hgap => exact (plain_blank hgap).passes
  | last hbefore hafter =>
    intro d hd rest hrest
    have hpart := hparts _ List.mem_cons_self
    rw [List.append_assoc, List.append_assoc, Scanner.afterValue_plain hd (plain_blank hbefore),
      hpart d hd _ (Ends.blank_append hafter hrest),
      Scanner.afterValue_plain hd (plain_blank hafter)]
  | more hbefore hafter _ _ ih =>
    intro d hd rest hrest
    obtain ⟨hpart, hparts⟩ := List.forall_mem_cons.1 hparts
    have hcomma : Plain [','] := List.forall_mem_singleton.2 (by decide)
    rw [List.append_assoc, List.append_assoc, List.append_assoc, List.cons_append,
      Scanner.afterValue_plain hd (plain_blank hbefore),
      hpart d hd _ (Ends.blank_append hafter (Ends.cons (.inl rfl))),
      Scanner.afterValue_plain hd (plain_blank hafter), ← List.singleton_append,
      Scanner.afterValue_plain hd hcomma, ih hparts d hd rest hrest]

/-- Parts that are joined have no blanks around them. -/
theorem spread_join (parts : List Text) : Spread parts (Text.join [','] parts) := by
  induction parts with
  | nil => exact .none .nil
  | cons part parts ih =>
    cases parts with
    | nil =>
      have hlast : Spread [part] ([] ++ (part ++ [])) := .last .nil .nil
      simpa [Text.join] using hlast
    | cons next parts =>
      rw [Text.join]
      · have hmore : Spread (part :: next :: parts)
            ([] ++ (part ++ ([] ++ ',' :: Text.join [','] (next :: parts)))) :=
          .more .nil .nil (List.cons_ne_nil _ _) ih
        simpa using hmore
      · exact List.cons_ne_nil _ _

end Cql.Literal

namespace Cql.Entries

open Literal (Spread)
open Scanner (Ends Starts)

variable {σ : Type} {type : ColumnType} {literal : Text} {close : Char}
  {entry : (t : Text) → σ → Except Fault (σ × Text.After t)}

/-- Entries are read one after the other, each from its part and whatever stands behind it, until one of
them fails. -/
inductive Reads (entry : (t : Text) → σ → Except Fault (σ × Text.After t)) :
    List Text → σ → Except Fault σ → Prop where
  | nil {state : σ} : Reads entry [] state (.ok state)
  | cons {part : Text} {parts : List Text} {state next : σ} {outcome : Except Fault σ}
    (hentry : ∀ rest, Ends rest → ∃ h, entry (part ++ rest) state = .ok (next, ⟨rest, h⟩))
    (h : Reads entry parts next outcome) : Reads entry (part :: parts) state outcome
  | fault {part : Text} {parts : List Text} {state : σ} {f : Fault}
    (hentry : ∀ rest, Ends rest → entry (part ++ rest) state = .error f) :
    Reads entry (part :: parts) state (.error f)

theorem readFrom_fault {t : Text} {state : σ} {f : Fault} (hentry : entry t state = .error f) :
    readFrom type literal close entry t state = .error f := by
  rw [readFrom, hentry]

/-- What stands behind an entry decides how the reading goes on. -/
theorem readFrom_step {t rest next : Text} {c : Char} {state after : σ}
    {hrest : rest.length < t.length} (hentry : entry t state = .ok (after, ⟨rest, hrest⟩))
    (hnext : Scanner.skipBlanks rest = c :: next) :
    readFrom type literal close entry t state =
      if c = close then finish type literal next after
      else if c = ',' then readFrom type literal close entry (Scanner.skipBlanks next) after
      else .error ⟨type, .unparsable literal .notSeparated⟩ := by
  rw [readFrom, hentry]
  dsimp only
  split
  · next hnil =>
    rw [hnext] at hnil
    cases hnil
  · next d tail hcons =>
    rw [hnext] at hcons
    cases hcons
    rfl

theorem readFrom_close {t rest next : Text} {state after : σ} {hrest : rest.length < t.length}
    (hentry : entry t state = .ok (after, ⟨rest, hrest⟩))
    (hnext : Scanner.skipBlanks rest = close :: next) :
    readFrom type literal close entry t state = finish type literal next after := by
  rw [readFrom_step hentry hnext, if_pos rfl]

theorem readFrom_comma {t rest next : Text} {state after : σ} {hrest : rest.length < t.length}
    (hentry : entry t state = .ok (after, ⟨rest, hrest⟩)) (hclose : ',' ≠ close)
    (hnext : Scanner.skipBlanks rest = ',' :: next) :
    readFrom type literal close entry t state =
      readFrom type literal close entry (Scanner.skipBlanks next) after := by
  rw [readFrom_step hentry hnext, if_neg hclose, if_pos rfl]

theorem readFrom_spread {parts : List Text} {inner : Text} (h : Spread parts inner)
    (hne : parts ≠ []) (hstarts : ∀ part ∈ parts, Starts part) (hclose : Literal.isClosing close = true)
    {state : σ} {outcome : Except Fault σ} (hreads : Reads entry parts state outcome) :
    readFrom type literal close entry (Text.trimStart (inner ++ [close])) state = outcome := by
  have hblank : Text.isBlank close = false := by
    simp only [Literal.isClosing, Bool.or_eq_true, beq_iff_eq] at hclose
    rcases hclose with (rfl | rfl) | rfl <;> decide
  have hcomma : ',' ≠ close := by
    rintro rfl
    cases hclose
  induction h generalizing state with
  | none => exact absurd rfl hne
  | last hbefore hafter =>
    have hstart := hstarts _ List.mem_cons_self
    have hclosed : Ends [close] := Ends.cons (.inr hclose)
    have hends := Ends.blank_append hafter hclosed
    rw [List.append_assoc, List.append_assoc, (hstart.append _).trimStart hbefore]
    cases hreads with
    | cons hentry hnil =>
      cases hnil
      obtain ⟨_, hentry⟩ := hentry _ hends
      have hnext : Scanner.skipBlanks (_ ++ [close]) = [close] :=
        (Text.trimStart_append hafter [close]).trans (Text.trimStart_cons hblank [])
      rw [readFrom_close hentry hnext]
      rfl
    | fault hentry => exact readFrom_fault (hentry _ hends)
  | more hbefore hafter hparts _ ih =>
    obtain ⟨hstart, hstarts⟩ := List.forall_mem_cons.1 hstarts
    have hends : ∀ t, Ends (_ ++ ',' :: t) := fun t => Ends.blank_append hafter (Ends.cons (.inl rfl))
    rw [List.append_assoc, List.append_assoc, List.append_assoc, List.cons_append,
      (hstart.append _).trimStart hbefore]
    cases hreads with
    | cons hentry hlater =>
      obtain ⟨_, hentry⟩ := hentry _ (hends _)
      rw [readFrom_comma hentry hcomma
        ((Text.trimStart_append hafter _).trans (Text.trimStart_cons (by decide) _))]
      exact ih hparts hstarts hlater
    | fault hentry => exact readFrom_fault (hentry _ (hends _))

/-- A literal of spread parts is read part by part. -/
theorem read_spread {parts : List Text} {inner : Text} (h : Spread parts inner) {opening : Char}
    (hbrackets : Scanner.Brackets opening close) (hstarts : ∀ part ∈ parts, Starts part)
    {state : σ} {outcome : Except Fault σ} (hreads : Reads entry parts state outcome)
    (hliteral : literal = opening :: (inner ++ [close])) :
    read type opening close entry literal state = outcome := by
  obtain ⟨_, hclose, _, _, hopening, hblank, _⟩ := hbrackets.marks
  have hskip : Scanner.skipBlanks literal = opening :: (inner ++ [close]) := by
    rw [hliteral]
    exact Text.trimStart_cons hopening _
  rw [read, hskip]
  dsimp only
  rw [if_pos rfl]
  by_cases hne : parts = []
  · subst hne
    cases hreads
    have hinner : Scanner.skipBlanks (inner ++ [close]) = [close] := by
      cases h with
      | none hgap => exact (Text.trimStart_append hgap _).trans (Text.trimStart_cons hblank [])
    rw [hinner]
    dsimp only
    rw [if_pos rfl]
    rfl
  · obtain ⟨c, next, hinner, _, hc⟩ := h.starts hne hstarts [close]
    have hother : c ≠ close := by
      rintro rfl
      rw [hclose] at hc
      cases hc
    have hread : readFrom type literal close entry _ state = _ :=
      readFrom_spread h hne hstarts hclose hreads
    rw [hinner] at hread
    rw [Scanner.skipBlanks, hinner]
    dsimp only
    rw [if_neg hother, hread]

end Cql.Entries

namespace Cql.Component

open Literal (Spread)
open Scanner (Ends Starts Scanned)

variable {σ : Type} {type : ColumnType} {literal : Text}

/-- Components are read one after the other, each from its part. -/
inductive Reads : List (Component σ) → List Text → σ → σ → Prop where
  | nil {state : σ} : Reads [] [] state state
  | cons {c : Component σ} {cs : List (Component σ)} {part : Text} {parts : List Text}
    {state next last : σ} (hpart : c.parse part state = .ok next) (h : Reads cs parts next last) :
    Reads (c :: cs) (part :: parts) state last

theorem readFrom_spread {parts : List Text} {inner : Text} (h : Spread parts inner)
    (hne : parts ≠ []) (hparts : ∀ part ∈ parts, Scanned part) {cs : List (Component σ)}
    {state last : σ} (hreads : Reads cs parts state last) :
    readFrom type literal cs (Text.trimStart (inner ++ [')'])) state = .ok last := by
  induction h generalizing cs state with
  | none => exact absurd rfl hne
  | last hbefore hafter =>
    obtain _ | ⟨hpart, hnil⟩ := hreads
    cases hnil
    have hscanned := hparts _ List.mem_cons_self
    have hnext : Scanner.skipBlanks (_ ++ [')']) = [')'] :=
      (Text.trimStart_append hafter [')']).trans (Text.trimStart_cons (by decide) [])
    rw [List.append_assoc, List.append_assoc, (hscanned.head.append _).trimStart hbefore, readFrom,
      hscanned.skipValue_append (Ends.blank_append hafter (Ends.cons (.inr rfl)))]
    dsimp only
    rw [hpart]
    simp only [bind, Except.bind, hnext]
    rfl
  | more hbefore hafter hmore _ ih =>
    obtain _ | ⟨hpart, hlater⟩ := hreads
    obtain ⟨hscanned, hparts⟩ := List.forall_mem_cons.1 hparts
    have hends : ∀ t, Ends (',' :: t) := fun t => Ends.cons (.inl rfl)
    have hnext : ∀ t, Scanner.skipBlanks (_ ++ ',' :: t) = ',' :: t := fun t =>
      (Text.trimStart_append hafter _).trans (Text.trimStart_cons (by decide) _)
    rw [List.append_assoc, List.append_assoc, List.append_assoc, List.cons_append,
      (hscanned.head.append _).trimStart hbefore, readFrom,
      hscanned.skipValue_append (Ends.blank_append hafter (hends _))]
    dsimp only
    rw [hpart]
    simp only [bind, Except.bind, hnext]
    exact ih hmore hparts hlater

/-- A literal of spread parts is read component by component. -/
theorem readAll_spread {parts : List Text} {inner : Text} (h : Spread parts inner)
    (hparts : ∀ part ∈ parts, Scanned part) {cs : List (Component σ)} {state last : σ}
    (hreads : Reads cs parts state last) :
    readAll type cs state ('(' :: (inner ++ [')'])) = .ok last := by
  have hskip : Scanner.skipBlanks ('(' :: (inner ++ [')'])) = '(' :: (inner ++ [')']) :=
    Text.trimStart_cons (by decide) _
  simp only [readAll, hskip]
  by_cases hne : parts = []
  · subst hne
    cases hreads
    have hinner : Scanner.skipBlanks (inner ++ [')']) = [')'] := by
      cases h with
      | none hgap => exact (Text.trimStart_append hgap _).trans (Text.trimStart_cons (by decide) [])
    rw [hinner]
    rfl
  · have hstarts := h.starts hne (fun part hpart => (hparts part hpart).head) [')']
    have hread : readFrom type ('(' :: (inner ++ [')'])) cs _ state = _ :=
      readFrom_spread h hne hparts hreads
    obtain ⟨c, next, hinner, _, hc⟩ := hstarts
    have hother : c ≠ ')' := by
      rintro rfl
      cases hc
    rw [hinner] at hread
    rw [Scanner.skipBlanks, hinner]
    split
    · next heq => exact absurd (List.cons.inj heq).1 hother
    · exact hread

end Cql.Component
