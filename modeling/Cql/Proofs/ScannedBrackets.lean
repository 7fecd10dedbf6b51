import Cql.Proofs.ValueScan
import Mathlib.Control.Monad.Basic

/-!
A value that the scanner takes has no string that is still open, and its brackets are balanced, each kind
for itself. The kinds are counted apart, so that brackets of two kinds may close crosswise.
-/

namespace Cql.Scanner

open Literal (isOpening isClosing)

/-! ## Strings and brackets, without a scanner -/

/-- What stands outside of strings. Each quote starts or ends one, and nothing stands between the two
quotes that are one inside of a string. -/
def outside : Bool → Text → Text
  | _, [] => []
  | inString, c :: t =>
    if c = '\x27' then outside (!inString) t
    else if inString then outside true t
    else c :: outside false t

/-- Whether a string is open at the end. -/
def endsInString : Bool → Text → Bool
  | inString, [] => inString
  | inString, c :: t => endsInString (if c = '\x27' then !inString else inString) t

/-- The bracket that closes what another one opens. -/
def counterpart? (c : Char) : Option Char :=
  if c = '(' then some ')' else if c = '[' then some ']' else if c = '\x7b' then some '\x7d' else none

/-- Every bracket is closed by its counterpart, and before all that were opened earlier. The counterparts
of those that are open come from the last one on. -/
def nests : List Char → Text → Bool
  | awaited, [] => awaited.isEmpty
  | awaited, c :: t =>
    match counterpart? c with
    | some closing => nests (closing :: awaited) t
    | none =>
      if isClosing c then awaited.head? == some c && nests awaited.tail t else nests awaited t

/-! ## Counting brackets -/

namespace Depth

/-- Brackets that are open and that the character closes. -/
def count (d : Depth) (c : Char) : Nat := (d.closes? c).getD 0

/-- Reading a character leads from the brackets that are open to those that are open behind it. -/
def Step (d : Depth) (mark : Char) (e : Depth) : Prop := ∀ o c, Brackets o c →
  d.count c + [mark].count o = e.count c + [mark].count c

/-- Of each kind, no more brackets are closed than are open, and what is open at the end are those that are
not closed. -/
structure Leads (d : Depth) (t : Text) (e : Depth) : Prop where
  fronts : ∀ o c, Brackets o c → ∀ front, front <+: t → front.count c ≤ d.count c + front.count o
  balance : ∀ o c, Brackets o c → d.count c + t.count o = e.count c + t.count c

variable {d e f : Depth} {mark : Char} {t : Text}

theorem count_of_isNone (h : d.isNone = true) {o c : Char} (hbrackets : Brackets o c) : d.count c = 0 := by
  simp only [isNone, Bool.and_eq_true, beq_iff_eq] at h
  cases hbrackets with
  | round => exact h.2
  | square => exact h.1.2
  | curly => exact h.1.1

theorem step_plain (hopen : d.open? mark = Option.none)
    (hcloses : d.closes? mark = Option.none) : Step d mark d := by
  intro o c hbrackets
  have hmarks : mark ≠ o ∧ mark ≠ c := by
    constructor
    · rintro rfl
      cases hbrackets <;> cases hopen
    · rintro rfl
      cases hbrackets <;> cases hcloses
  rw [List.count_singleton, List.count_singleton, beq_eq_false_iff_ne.2 hmarks.1,
    beq_eq_false_iff_ne.2 hmarks.2]

theorem step_open (h : d.open? mark = some e) : Step d mark e := by
  unfold open? at h
  intro o c hbrackets
  repeat' split at h
  all_goals cases h
  all_goals
    subst_vars
    cases hbrackets <;> simp [count, closes?]

theorem step_close {k : Nat} (h : d.closes? mark = some (k + 1)) : Step d mark (d.close mark) := by
  unfold closes? at h
  intro o c hbrackets
  repeat' split at h
  all_goals cases hbrackets
  all_goals simp_all [count, closes?, close]

theorem Leads.nil (d : Depth) : Leads d [] d where
  fronts o c _ front hfront := by
    rw [List.prefix_nil.1 hfront]
    exact Nat.zero_le _
  balance _ _ _ := rfl

theorem Leads.cons (hstep : Step d mark e) (h : Leads e t f) : Leads d (mark :: t) f where
  fronts o c hbrackets front hfront := by
    have hmark := hstep o c hbrackets
    obtain rfl | ⟨later, rfl, hlater⟩ := List.prefix_cons_iff.1 hfront
    · exact Nat.zero_le _
    · have hrest := h.fronts o c hbrackets later hlater
      rw [← List.singleton_append, List.count_append, List.count_append]
      omega
  balance o c hbrackets := by
    have hmark := hstep o c hbrackets
    have hrest := h.balance o c hbrackets
    rw [← List.singleton_append, List.count_append, List.count_append]
    omega

end Depth

/-! ## What the scanner takes -/

/-- What is taken in front of the rest: no string is open behind it, and brackets are open only if the rest
starts with one that closes none of them. -/
structure Taken (d : Depth) (inString : Bool) (value rest : Text) : Prop where
  strings : endsInString inString value = false
  brackets : ∃ e, d.Leads (outside inString value) e ∧
    (e.isNone = true ∨ ∃ c more, rest = c :: more ∧ e.closes? c = some 0)

variable {d e : Depth} {c : Char} {value rest : Text}

theorem Taken.nil (h : d.isNone = true) : Taken d false [] rest := ⟨rfl, d, .nil d, .inl h⟩

theorem Taken.stop (h : d.closes? c = some 0) : Taken d false [] (c :: rest) :=
  ⟨rfl, d, .nil d, .inr ⟨c, rest, rfl, h⟩⟩

theorem Taken.starts (h : Taken d true value rest) : Taken d false ('\x27' :: value) rest :=
  ⟨h.strings, h.brackets⟩

theorem Taken.leaves (h : Taken d false value rest) : Taken d true ('\x27' :: value) rest :=
  ⟨h.strings, h.brackets⟩

theorem Taken.inside (hc : c ≠ '\x27') (h : Taken d true value rest) : Taken d true (c :: value) rest := by
  have hstrings := h.strings
  have hbrackets := h.brackets
  refine ⟨?_, ?_⟩
  · simpa [endsInString, hc] using hstrings
  · simpa [outside, hc] using hbrackets

theorem Taken.cons (hc : c ≠ '\x27') (hstep : d.Step c e) (h : Taken e false value rest) :
    Taken d false (c :: value) rest := by
  obtain ⟨hstrings, last, hleads, hlast⟩ := h
  refine ⟨?_, last, ?_, hlast⟩
  · simpa [endsInString, hc] using hstrings
  · simpa [outside, hc] using hleads.cons hstep

/-- The rest of a text behind what is taken in front of it. -/
def Takes (d : Depth) (inString : Bool) (s rest : Text) : Prop :=
  ∃ value, s = value ++ rest ∧ Taken d inString value rest

theorem Takes.cons {inString later : Bool} {s : Text} (h : Takes e later s rest)
    (hcons : ∀ {value}, Taken e later value rest → Taken d inString (c :: value) rest) :
    Takes d inString (c :: s) rest := by
  obtain ⟨value, rfl, htaken⟩ := h
  exact ⟨c :: value, rfl, hcons htaken⟩

/-- Every character that is read is a step of the count or stands in a string. -/
theorem afterValue_takes {inString : Bool} {s : Text} (h : afterValue d inString s = some rest) :
    Takes d inString s rest := by
  fun_induction afterValue d inString s with
  | case1 => cases h
  | case2 d inString hend =>
    cases h
    simp only [Bool.or_eq_true, Bool.not_eq_true', not_or, Bool.not_eq_true, Bool.not_eq_false] at hend
    obtain ⟨rfl, hnone⟩ := hend
    exact ⟨[], rfl, .nil hnone⟩
  | case3 d hnone =>
    cases h
    exact ⟨['\x27'], rfl, .leaves (.nil hnone)⟩
  | case4 => cases h
  | case5 d s ih =>
    have hstarted : Takes d false ('\x27' :: s) rest := (ih h).cons .starts
    exact hstarted.cons .leaves
  | case6 d next s hnext hnone =>
    cases h
    exact ⟨['\x27'], rfl, .leaves (.nil hnone)⟩
  | case7 d next s hnext hopen ih => exact (ih h).cons .leaves
  | case8 d c s hc ih => exact (ih h).cons (.inside hc)
  | case9 d inString s hout ih =>
    cases Bool.eq_false_iff.2 hout
    exact (ih h).cons .starts
  | case10 d inString c s hout hc e hopen ih =>
    cases Bool.eq_false_iff.2 hout
    exact (ih h).cons (.cons hc (Depth.step_open hopen))
  | case11 d inString c s hout hc hopen hcloses =>
    cases Bool.eq_false_iff.2 hout
    cases h
    exact ⟨[], rfl, .stop hcloses⟩
  | case12 d inString c s hout hc hopen k hcloses hnone =>
    cases Bool.eq_false_iff.2 hout
    cases h
    exact ⟨[c], rfl, .cons hc (Depth.step_close hcloses) (.nil hnone)⟩
  | case13 d inString c s hout hc hopen k hcloses hnone ih =>
    cases Bool.eq_false_iff.2 hout
    exact (ih h).cons (.cons hc (Depth.step_close hcloses))
  | case14 d inString c s hout hc hopen hcloses hend =>
    cases Bool.eq_false_iff.2 hout
    cases h
    exact ⟨[], rfl, .nil (Bool.and_eq_true_iff.1 hend).1⟩
  | case15 d inString c s hout hc hopen hcloses hend ih =>
    cases Bool.eq_false_iff.2 hout
    exact (ih h).cons (.cons hc (Depth.step_plain hopen hcloses))

theorem closes?_zero (h : e.closes? c = some 0) : ∃ o, Brackets o c ∧ e.count c = 0 := by
  have hcount : e.count c = 0 := by rw [Depth.count, h, Option.getD_some]
  unfold Depth.closes? at h
  split at h
  · next hc => exact ⟨'\x7b', hc ▸ .curly, hcount⟩
  · split at h
    · next hc => exact ⟨'[', hc ▸ .square, hcount⟩
    · split at h
      · next hc => exact ⟨'(', hc ▸ .round, hcount⟩
      · cases h

theorem skipValue_takes {s : Text} (h : skipValue s = .ok (value, rest)) :
    s = value ++ rest ∧ Taken .none false value rest := by
  obtain ⟨hscan, rfl⟩ := skipValue_ok h
  obtain ⟨front, rfl, htaken⟩ := afterValue_takes hscan
  rw [consumed_append]
  exact ⟨rfl, htaken⟩

/-- A value is taken from the front. Its strings are closed. Outside of them, every closing bracket closes
one of its own kind that is open, and no bracket is left open, unless the value ends in front of a closing
bracket that none of them waits for. -/
theorem skipValue_closed {s value rest : Text} (h : skipValue s = .ok (value, rest)) :
    s = value ++ rest ∧ endsInString false value = false ∧
      (∀ o c, Brackets o c → ∀ front, front <+: outside false value → front.count c ≤ front.count o) ∧
      ((∀ o c, Brackets o c → (outside false value).count o = (outside false value).count c) ∨
        ∃ o c more, Brackets o c ∧ rest = c :: more ∧
          (outside false value).count o = (outside false value).count c) := by
  obtain ⟨rfl, hstrings, e, hleads, hend⟩ := skipValue_takes h
  have hnone : ∀ {o c}, Brackets o c → Depth.none.count c = 0 := Depth.count_of_isNone rfl
  have hclosed : ∀ {o c}, Brackets o c → e.count c = 0 →
      (outside false value).count o = (outside false value).count c := by
    intro o c hbrackets hcount
    have hbalance := hleads.balance o c hbrackets
    rwa [hnone hbrackets, hcount, Nat.zero_add, Nat.zero_add] at hbalance
  refine ⟨rfl, hstrings, fun o c hbrackets front hfront => ?_, ?_⟩
  · have hless := hleads.fronts o c hbrackets front hfront
    rwa [hnone hbrackets, Nat.zero_add] at hless
  · obtain hlast | ⟨c, more, rfl, hcloses⟩ := hend
    · exact .inl fun o c hbrackets => hclosed hbrackets (Depth.count_of_isNone hlast hbrackets)
    · obtain ⟨o, hbrackets, hcount⟩ := closes?_zero hcloses
      exact .inr ⟨o, c, more, hbrackets, rfl, hclosed hbrackets hcount⟩

/-- A list with a bracket and a doubled quote in a string, and a further element behind it. -/
theorem skipValue_closed_list :
    skipValue "['a(''',(1)] , 2".toList = .ok ("['a(''',(1)]".toList, " , 2".toList) ∧
      outside false "['a(''',(1)]".toList = "[,(1)]".toList ∧
      endsInString false "['a(''',(1)]".toList = false ∧
      ∀ o c, Brackets o c → "[,(1)]".toList.count o = "[,(1)]".toList.count c := by
  have hscan : skipValue "['a(''',(1)] , 2".toList =
      .ok ("['a(''',(1)]".toList, " , 2".toList) := by decide +kernel
  have houtside : outside false "['a(''',(1)]".toList = "[,(1)]".toList := by decide
  obtain ⟨-, hstrings, -, hbalanced | ⟨_, c, _, hbrackets, hrest, -⟩⟩ := skipValue_closed hscan
  · rw [houtside] at hbalanced
    exact ⟨hscan, houtside, hstrings, hbalanced⟩
  · cases hrest
    cases hbrackets

/-- Brackets of two kinds that close crosswise are taken as a value. -/
theorem skipValue_crosswise :
    skipValue "[(])".toList = .ok ("[(])".toList, []) ∧
      nests [] (outside false "[(])".toList) = false :=
  ⟨by rfl, by decide⟩

end Cql.Scanner
