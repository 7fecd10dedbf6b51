import Cql.Proofs.Names
import Cql.Proofs.Quoting

/-!
Blanks that may be put into a literal: at its ends, behind an opening bracket, before a closing one, and
around a comma or a colon. No blank goes into a string or a quoted name.
-/

namespace Cql.Literal

open Text (Blank)

def isOpening (c : Char) : Bool := c == '(' || c == '[' || c == '\x7b'

def isClosing (c : Char) : Bool := c == ')' || c == ']' || c == '\x7d'

def isSeparator (c : Char) : Bool := c == ',' || c == ':'

inductive Place where
  | outside
  | string
  | name
  deriving DecidableEq, Repr

/-- The place in a literal behind some of its characters. -/
structure State where
  place : Place
  /-- An opening bracket or a separator stands in front. -/
  edge : Bool
  deriving DecidableEq, Repr

namespace State

/-- A place where a value may start, but no blank may stand. -/
def tight : State := ⟨.outside, false⟩

/-- Behind an opening bracket or a separator. -/
def loose : State := ⟨.outside, true⟩

def step (s : State) (c : Char) : State :=
  match s.place with
  | .outside =>
    if c = '\x27' then ⟨.string, false⟩
    else if c = '"' then ⟨.name, false⟩
    else ⟨.outside, isOpening c || isSeparator c⟩
  | .string => ⟨if c = '\x27' then .outside else .string, false⟩
  | .name => ⟨if c = '"' then .outside else .name, false⟩

def run (s : State) (t : Text) : State := t.foldl step s

/-- Whether blanks may stand before the next character. -/
def allows (s : State) (c : Char) : Bool :=
  decide (s.place = .outside) && (s.edge || isClosing c || isSeparator c)

end State

/-- The second text is the first one with blanks before some characters that allow them. -/
inductive Spaced : State → Text → Text → Prop where
  | nil {s : State} : Spaced s [] []
  | cons {s : State} {gap : Text} {c : Char} {t u : Text} (hgap : Blank gap)
    (hallows : gap = [] ∨ s.allows c = true) (h : Spaced (s.step c) t u) :
    Spaced s (c :: t) (gap ++ c :: u)

/-- The second text is the first one with blanks put in, also at both ends. -/
def Respaced (t u : Text) : Prop :=
  ∃ front core back, Blank front ∧ Spaced .tight t core ∧ Blank back ∧ u = front ++ (core ++ back)

namespace Spaced

variable {s : State} {c : Char} {t u : Text}

/-- Blanks that were put into a text lie in the one or the other of its parts. -/
theorem append {a b : Text} (h : Spaced s (a ++ b) u) :
    ∃ v w, u = v ++ w ∧ Spaced s a v ∧ Spaced (s.run a) b w := by
  induction a generalizing s u with
  | nil => exact ⟨[], u, rfl, .nil, h⟩
  | cons c a ih =>
    rw [List.cons_append] at h
    obtain _ | ⟨hgap, hallows, hrest⟩ := h
    obtain ⟨v, w, rfl, hv, hw⟩ := ih hrest
    exact ⟨_, w, by simp, .cons hgap hallows hv, hw⟩

theorem cons_tight (hc : s.allows c = false) (h : Spaced s (c :: t) u) :
    ∃ v, u = c :: v ∧ Spaced (s.step c) t v := by
  obtain _ | ⟨hgap, hallows, hrest⟩ := h
  rcases hallows with rfl | hallows
  · exact ⟨_, rfl, hrest⟩
  · rw [hc] at hallows
    cases hallows

theorem cons_gap (h : Spaced s (c :: t) u) :
    ∃ gap v, Blank gap ∧ u = gap ++ c :: v ∧ Spaced (s.step c) t v := by
  obtain _ | ⟨hgap, _, hrest⟩ := h
  exact ⟨_, _, hgap, rfl, hrest⟩

/-- No blanks need to be put in. -/
theorem refl (s : State) (t : Text) : Spaced s t t := by
  induction t generalizing s with
  | nil => exact .nil
  | cons c t ih => exact .cons Blank.nil (.inl rfl) (ih _)

/-- Blanks at an edge stand in front of the text. -/
theorem of_loose (h : Spaced .loose t u) :
    ∃ gap v, Blank gap ∧ u = gap ++ v ∧ Spaced .tight t v := by
  cases h with
  | nil => exact ⟨[], [], Blank.nil, rfl, .nil⟩
  | cons hgap _ hrest => exact ⟨_, _, hgap, rfl, .cons Blank.nil (.inl rfl) hrest⟩

end Spaced

/-! ## Texts without room for blanks -/

theorem ne_of_isNameChar {c d : Char} (hc : Identifier.isNameChar c = true)
    (hd : Identifier.isNameChar d = false) : c ≠ d := by
  rintro rfl
  rw [hc] at hd
  cases hd

theorem isOpening_eq_false {c : Char} (hc : Identifier.isNameChar c = true) : isOpening c = false := by
  simp [isOpening, ne_of_isNameChar hc (d := '(') rfl, ne_of_isNameChar hc (d := '[') rfl,
    ne_of_isNameChar hc (d := '\x7b') rfl]

theorem isClosing_eq_false {c : Char} (hc : Identifier.isNameChar c = true) : isClosing c = false := by
  simp [isClosing, ne_of_isNameChar hc (d := ')') rfl, ne_of_isNameChar hc (d := ']') rfl,
    ne_of_isNameChar hc (d := '\x7d') rfl]

theorem isSeparator_eq_false {c : Char} (hc : Identifier.isNameChar c = true) :
    isSeparator c = false := by
  simp [isSeparator, ne_of_isNameChar hc (d := ',') rfl, ne_of_isNameChar hc (d := ':') rfl]

/-- No character of the text allows a blank before it. -/
def Solid : State → Text → Prop
  | _, [] => True
  | s, c :: t => s.allows c = false ∧ Solid (s.step c) t

theorem Solid.spaced_eq {s : State} {t u : Text} (ht : Solid s t) (h : Spaced s t u) : u = t := by
  induction t generalizing s u with
  | nil =>
    cases h
    rfl
  | cons c t ih =>
    obtain ⟨v, rfl, hv⟩ := h.cons_tight ht.1
    rw [ih ht.2 hv]

theorem Solid.append {s : State} {t u : Text} (ht : Solid s t) (hu : Solid (s.run t) u) :
    Solid s (t ++ u) := by
  induction t generalizing s with
  | nil => exact hu
  | cons c t ih => exact ⟨ht.1, ih ht.2 hu⟩

namespace State

theorem run_append (s : State) (t u : Text) : s.run (t ++ u) = (s.run t).run u :=
  List.foldl_append

theorem run_cons (s : State) (c : Char) (t : Text) : s.run (c :: t) = (s.step c).run t := rfl

theorem step_nameChar {c : Char} (hc : Identifier.isNameChar c = true) :
    tight.allows c = false ∧ tight.step c = tight := by
  simp [allows, step, tight, isOpening_eq_false hc, isClosing_eq_false hc, isSeparator_eq_false hc,
    ne_of_isNameChar hc (d := '\x27') rfl, ne_of_isNameChar hc (d := '"') rfl]

end State

/-- A text that leaves the place where it found it, and has no room for blanks. -/
def Rigid (t : Text) : Prop := Solid .tight t ∧ State.tight.run t = .tight

theorem rigid_names {t : Text} (h : ∀ c ∈ t, Identifier.isNameChar c = true) : Rigid t := by
  induction t with
  | nil => exact ⟨trivial, rfl⟩
  | cons c t ih =>
    obtain ⟨hc, ht⟩ := List.forall_mem_cons.1 h
    obtain ⟨hallows, hstep⟩ := State.step_nameChar hc
    obtain ⟨hsolid, hrun⟩ := ih ht
    exact ⟨⟨hallows, hstep.symm ▸ hsolid⟩, by rw [State.run_cons, hstep, hrun]⟩

/-- Between marks only a mark changes the place, and a doubled one changes it back. -/
theorem solid_doubled {place : Place} {mark : Char} (hinside : ∀ c, State.allows ⟨place, false⟩ c = false)
    (hallows : State.tight.allows mark = false) (hopen : State.tight.step mark = ⟨place, false⟩)
    (hclose : State.step ⟨place, false⟩ mark = .tight)
    (hother : ∀ c, c ≠ mark → State.step ⟨place, false⟩ c = ⟨place, false⟩) (t : Text) :
    Solid ⟨place, false⟩ (t.flatMap fun c => if c = mark then [c, c] else [c]) ∧
      State.run ⟨place, false⟩ (t.flatMap fun c => if c = mark then [c, c] else [c]) =
        ⟨place, false⟩ := by
  induction t with
  | nil => exact ⟨trivial, rfl⟩
  | cons c t ih =>
    rw [List.flatMap_cons]
    by_cases hc : c = mark
    · subst hc
      rw [if_pos rfl]
      refine ⟨⟨hinside c, ?_, ?_⟩, ?_⟩
      · rw [hclose]
        exact hallows
      · rw [hclose, hopen]
        exact ih.1
      · rw [List.cons_append, List.singleton_append, State.run_cons, State.run_cons, hclose, hopen,
          ih.2]
    · rw [if_neg hc, List.singleton_append]
      refine ⟨⟨hinside c, ?_⟩, ?_⟩
      · rw [hother c hc]
        exact ih.1
      · rw [State.run_cons, hother c hc, ih.2]

theorem rigid_enclosed {place : Place} {mark : Char} (hplace : place ≠ .outside)
    (hallows : State.tight.allows mark = false) (hopen : State.tight.step mark = ⟨place, false⟩)
    (hclose : State.step ⟨place, false⟩ mark = .tight)
    (hother : ∀ c, c ≠ mark → State.step ⟨place, false⟩ c = ⟨place, false⟩) (t : Text) :
    Rigid (mark :: ((t.flatMap fun c => if c = mark then [c, c] else [c]) ++ [mark])) := by
  have hinside : ∀ c, State.allows ⟨place, false⟩ c = false := fun c => by
    simp [State.allows, hplace]
  obtain ⟨hsolid, hrun⟩ := solid_doubled hinside hallows hopen hclose hother t
  refine ⟨⟨hallows, ?_⟩, ?_⟩
  · rw [hopen]
    refine hsolid.append ?_
    rw [hrun]
    exact ⟨hinside mark, trivial⟩
  · rw [State.run_cons, hopen, State.run_append, hrun]
    exact hclose

theorem rigid_quote (t : Text) : Rigid (Quoted.quote t) :=
  rigid_enclosed (by decide) rfl rfl rfl (fun c hc => by simp [State.step, hc]) t

theorem rigid_name (name : String) : Rigid (Identifier.display name) := by
  rw [Identifier.display_eq]
  split
  · next hplain =>
    exact rigid_names (Identifier.isPlain_isNameChar hplain)
  · exact rigid_enclosed (by decide) rfl rfl rfl (fun c hc => by simp [State.step, hc]) name.toList

/-- A text that is not empty and ends where a value may end. -/
def Whole (t : Text) : Prop := t ≠ [] ∧ State.tight.run t = .tight

theorem Whole.run_loose {t : Text} (h : Whole t) : State.loose.run t = .tight := by
  obtain ⟨hne, hrun⟩ := h
  cases t with
  | nil => exact absurd rfl hne
  | cons c t => exact hrun

end Cql.Literal
