import Cql.Proofs.ParameterFrames
import Cql.Proofs.TypeCuts

/-!
What can go wrong with one fragment before its parameters are read. Nothing of it has to do with how
deep parameters are nested, and the end of the input is told behind the fragment in which something is
missing. In a parameter nothing but the end of a quoted name can be missing: the brackets of a parameter
were counted when it was cut out.
-/

namespace Cql.TypeName

open Scanner (afterQuotedName)
open Text (Blank)

/-! ## Counted brackets -/

/-- The last character of a text closes a bracket in front of it. -/
def Closes (t : Text) : Prop := ∃ depth, afterBrackets depth t = some []

namespace Closes

variable {front back t : Text}

theorem of_append (h : Closes (front ++ back)) (hne : back ≠ []) : Closes back := by
  obtain ⟨depth, h⟩ := h
  induction front generalizing depth with
  | nil => exact ⟨depth, h⟩
  | cons c front ih =>
    rw [List.cons_append] at h
    by_cases hopen : c = '<'
    · subst hopen
      rw [afterBrackets_open] at h
      exact ih _ h
    · by_cases hclose : c = '>'
      · subst hclose
        cases depth with
        | zero =>
          rw [afterBrackets_last] at h
          exact absurd (List.append_eq_nil_iff.1 (Option.some.inj h)).2 hne
        | succ depth =>
          rw [afterBrackets_close] at h
          exact ih _ h
      · rw [afterBrackets_other hopen hclose] at h
        exact ih _ h

theorem exists_last (h : Closes t) : ∃ front, t = front ++ ['>'] := by
  obtain ⟨depth, h⟩ := h
  exact exists_closing h

theorem mem (h : Closes t) : '>' ∈ t := by
  obtain ⟨front, rfl⟩ := h.exists_last
  exact List.mem_append_right _ List.mem_cons_self

end Closes

/-- A bracket that is opened in front of others is closed behind them. -/
theorem afterBrackets_outer {depth : Nat} {t rest : Text} (h : afterBrackets depth t = some rest)
    (outer : Nat) : afterBrackets (depth + (outer + 1)) t = afterBrackets outer rest := by
  fun_induction afterBrackets depth t with
  | case1 => cases h
  | case2 depth next ih => rw [afterBrackets_open, Nat.add_right_comm, ih h]
  | case3 next _ =>
    cases h
    rw [Nat.zero_add, afterBrackets_close]
  | case4 next depth _ ih => rw [Nat.succ_add, afterBrackets_close, ih h]
  | case5 depth c next hopen hclose ih => rw [afterBrackets_other hopen hclose, ih h]

/-- The bracket that closes the first one closes no other. -/
theorem Closes.behind {inner : Text} (h : Closes ('<' :: inner)) : afterBrackets 0 inner ≠ some [] := by
  intro hinner
  obtain ⟨depth, h⟩ := h
  rw [afterBrackets_open, ← Nat.zero_add (depth + 1), afterBrackets_outer hinner] at h
  cases h

/-! ## Parameters as they are cut out -/

/-- Arguments as they are skipped: none, or a bracket and all up to the one that closes it. -/
inductive Raw : Text → Prop
  | none : Raw []
  | brackets {inner : Text} (hinner : afterBrackets 0 inner = some []) : Raw ('<' :: inner)

inductive IsParameter : Text → Prop
  | named {head : Head} {word gap args : Text} (hword : IsHead head word) (hgap : Blank gap)
    (hargs : Raw args) : IsParameter (word ++ (gap ++ args))
  | nameless {args : Text} (hargs : Raw args) : IsParameter args

theorem skipArguments_raw {f : Fragment} {t rest : Text} (h : skipArguments f t = .ok rest) :
    ∃ gap args, Blank gap ∧ Raw args ∧ t = gap ++ (args ++ rest) := by
  obtain ⟨gap, hgap, ht⟩ := Text.exists_blank_append t
  unfold skipArguments at h
  split at h
  · next hnil =>
    cases h
    exact ⟨gap, [], hgap, .none, by rwa [hnil] at ht⟩
  · next c next hcons =>
    rw [hcons] at ht
    split at h
    · next hopen =>
      subst hopen
      split at h
      · next behind hbehind =>
        cases h
        obtain ⟨inner, rfl, hinner⟩ := afterBrackets_frame hbehind
        have hclosed := hinner []
        rw [List.append_nil] at hclosed
        exact ⟨gap, '<' :: inner, hgap, .brackets hclosed, ht⟩
      · cases h
    · split at h
      · cases h
        exact ⟨gap, [], hgap, .none, ht⟩
      · cases h

theorem isParameter {f : Fragment} {c : Char} {next after rest : Text}
    (hblank : Text.isBlank c = false) (hhead : skipHead f (c :: next) = .ok after)
    (hargs : skipArguments f after = .ok rest) :
    ∃ part, c :: next = part ++ rest ∧ IsParameter part := by
  obtain ⟨gap, args, hgap, hraw, rfl⟩ := skipArguments_raw hargs
  unfold skipHead at hhead
  split at hhead
  · next head behind hread =>
    cases hhead
    obtain ⟨word, hword, htext, -⟩ := readHead_eq_ok hread
    exact ⟨word ++ (gap ++ args), by rw [htext]; simp, .named hword hgap hraw⟩
  · split at hhead
    · have htext : c :: next = gap ++ (args ++ rest) := Except.ok.inj hhead
      have hnone : gap = [] := by
        cases gap with
        | nil => rfl
        | cons d gap =>
          cases htext
          rw [hgap.of_cons.1] at hblank
          cases hblank
      rw [hnone] at htext
      exact ⟨args, htext, .nameless hraw⟩
    · cases hhead

theorem Raw.eq_nil {front args : Text} (h : Raw args) (hcloses : Closes (front ++ args)) : args = [] := by
  cases h with
  | none => rfl
  | brackets hinner => exact absurd hinner (hcloses.of_append (List.cons_ne_nil _ _)).behind

/-- A name has no bracket for its last character. -/
theorem IsHead.not_closes {head : Head} {word : Text} (h : IsHead head word) : ¬ Closes word := by
  intro hcloses
  cases h with
  | bare hne hchars => exact absurd (hchars _ hcloses.mem) (by decide)
  | quoted hne => exact absurd (hcloses.of_append (List.cons_ne_nil '"' [])).mem (by decide)

/-- A parameter closes no bracket in front of it. -/
theorem IsParameter.not_closes {sep part : Text} (h : IsParameter part) (hsep : '>' ∉ sep) :
    ¬ Closes (sep ++ part) := by
  intro hcloses
  cases h with
  | @named head word gap args hword hgap hargs =>
    rw [← List.append_assoc, ← List.append_assoc] at hcloses
    have hnone := hargs.eq_nil hcloses
    subst hnone
    rw [List.append_nil] at hcloses
    by_cases hne : gap = []
    · subst hne
      rw [List.append_nil] at hcloses
      obtain ⟨c, r, hfirst, -⟩ := hword.first
      exact hword.not_closes (hcloses.of_append (hfirst ▸ List.cons_ne_nil c r))
    · exact (not_mem_of_blank hgap).2 (hcloses.of_append hne).mem
  | nameless hargs =>
    have hnone := hargs.eq_nil hcloses
    subst hnone
    rw [List.append_nil] at hcloses
    exact hsep hcloses.mem

/-! ## What is missing -/

/-- A quoted name that goes on to the end. -/
def OpenName (t : Text) : Prop := ∃ front inner, t = front ++ '"' :: inner ∧ afterQuotedName inner = none

theorem OpenName.append {t : Text} (h : OpenName t) (front : Text) : OpenName (front ++ t) := by
  obtain ⟨before, inner, rfl, hinner⟩ := h
  exact ⟨front ++ before, inner, by rw [List.append_assoc], hinner⟩

/-- A stop of work on one fragment: it tells of the end of the input, if at all, behind the fragment and
for a reason, and never of nesting. -/
def StopsFor (f : Fragment) (reason : Prop) (stop : Stop) : Prop :=
  (stop.flaw = .endOfInput → stop.position = f.endPosition ∧ reason) ∧
    ∀ limit, stop.flaw ≠ .tooDeep limit

def Misses {α : Type} (f : Fragment) (reason : Prop) (x : Except Stop α) : Prop :=
  ∀ stop, x = .error stop → StopsFor f reason stop

namespace Misses

variable {α β : Type} {f : Fragment} {reason : Prop}

theorem ok (a : α) : Misses f reason (.ok a) := by
  intro stop h
  cases h

theorem error {stop : Stop} (h : StopsFor f reason stop) :
    Misses f reason (.error stop : Except Stop α) := by
  intro found hfound
  cases hfound
  exact h

theorem bind {x : Except Stop α} {next : α → Except Stop β} (hx : Misses f reason x)
    (hnext : ∀ a, Misses f reason (next a)) : Misses f reason (x >>= next) := by
  cases x with
  | error stop => exact .error (hx stop rfl)
  | ok a => exact hnext a

theorem mono {other : Prop} {x : Except Stop α} (hx : Misses f reason x) (h : reason → other) :
    Misses f other x := by
  intro stop hstop
  exact (hx stop hstop).imp_left fun hend hflaw => (hend hflaw).imp_right h

end Misses

theorem readHead_misses (f : Fragment) (t : Text) : Misses f (OpenName t) (readHead f t) := by
  unfold readHead
  split
  · next hquote =>
    obtain ⟨inner, rfl⟩ := List.head?_eq_some_iff.1 hquote
    simp only [Scanner.skipIdentifier]
    cases hname : afterQuotedName inner with
    | none => exact .error ⟨fun _ => ⟨rfl, [], inner, rfl, hname⟩, by simp⟩
    | some rest =>
      dsimp only
      split
      · exact .error (by simp [StopsFor])
      · exact .ok _
  · dsimp only
    split
    · exact .error (by simp [StopsFor])
    · exact .ok _

theorem skipHead_misses (f : Fragment) (t : Text) : Misses f (OpenName t) (skipHead f t) := by
  unfold skipHead
  split
  · exact .ok _
  · next stop hstop =>
    split
    · exact .ok _
    · exact .error (readHead_misses f t stop hstop)

theorem skipArguments_misses (f : Fragment) (t : Text) : Misses f False (skipArguments f t) := by
  unfold skipArguments
  split
  · exact .ok _
  · split
    · split
      · exact .ok _
      · exact .error (by simp [StopsFor])
    · split
      · exact .ok _
      · exact .error (by simp [StopsFor])

/-- The list goes on to the end only if its own bracket is not closed there. -/
theorem parametersFrom_misses (f : Fragment) (t : Text) :
    Misses f (OpenName t ∨ ¬ Closes t) (parametersFrom f t) := by
  fun_induction parametersFrom f t with
  | case1 t hnext =>
    refine .error ⟨fun _ => ⟨rfl, .inr fun hcloses => ?_⟩, by simp⟩
    have hmem := hcloses.mem
    rcases skipSeparator_eq_nil hnext with hblank | ⟨gap, back, hgap, hback, rfl⟩
    · exact (not_mem_of_blank hblank).2 hmem
    · rcases List.mem_append.1 hmem with hmem | hmem
      · exact (not_mem_of_blank hgap).2 hmem
      · exact (not_mem_of_blank hback).2 (List.mem_of_ne_of_mem (by decide) hmem)
  | case2 => exact .ok _
  | case3 t c next hnext _ stop hhead =>
    obtain ⟨-, sep, rfl, -⟩ := skipSeparator_eq_cons hnext
    exact Misses.mono (.error (skipHead_misses f _ stop hhead)) fun h => .inl (h.append sep)
  | case4 t c next _ _ after _ stop hargs =>
    exact Misses.mono (.error (skipArguments_misses f _ stop hargs)) False.elim
  | case5 t c next hnext _ after hhead rest hargs _ ih =>
    refine Misses.bind (ih.mono fun h => ?_) fun _ => .ok _
    obtain ⟨hblank, sep, rfl, -, hsep⟩ := skipSeparator_eq_cons hnext
    obtain ⟨part, hpart, hparameter⟩ := isParameter hblank hhead hargs
    rw [hpart, ← List.append_assoc]
    refine h.imp (fun hopen => hopen.append _) fun hrest hcloses => ?_
    by_cases hne : rest = []
    · -- the last bracket would belong to the parameter
      rw [hne, List.append_nil] at hcloses
      exact hparameter.not_closes (not_mem_of_separator hsep).2 hcloses
    · exact hrest (hcloses.of_append hne)

section Reason

variable {f : Fragment} {reason : Prop} {t : Text}

theorem parameters_misses
    (h : ∀ rest, skipSeparator t = '<' :: rest → Misses f reason (parametersFrom f rest)) :
    Misses f reason (parameters f t) := by
  unfold parameters
  split
  · exact .ok _
  · next c rest hnext =>
    split
    · next hopen =>
      subst hopen
      exact h rest hnext
    · exact .error (by simp [StopsFor])

theorem cutWord_misses (h : Misses f reason (parameters f t)) (start : Text) (word : Head) :
    Misses f reason (cutWord f start word t) := by
  have hfixed : ∀ keyword form, Misses f reason (cutFixed f keyword form start t) := by
    refine fun keyword form => h.bind fun (fragments, behind) => ?_
    dsimp only
    split
    · exact .ok _
    · exact .error (by simp [StopsFor])
  cases word with
  | quoted name => exact .ok _
  | bare name =>
    simp only [cutWord]
    split
    · next keyword _ =>
      cases keyword with
      | native _ | empty => exact .ok _
      | list | set | map | frozen => exact hfixed _ _
      | tuple => exact h.bind fun _ => .ok _
    · exact .ok _

end Reason

theorem cut_misses (f : Fragment) : Misses f True (cut f) := by
  refine ((readHead_misses f _).mono fun _ => trivial).bind fun (word, t) => ?_
  refine cutWord_misses (parameters_misses fun rest _ => ?_) _ _
  exact (parametersFrom_misses f rest).mono fun _ => trivial

/-- A quoted name that the last bracket is part of. -/
def Torn (t : Text) : Prop :=
  ∃ front inner, t = front ++ '"' :: (inner ++ ['>']) ∧ afterQuotedName (inner ++ ['>']) = none

theorem OpenName.torn {t : Text} (h : OpenName t) (hcloses : Closes t) (before : Text) :
    Torn (before ++ t) := by
  obtain ⟨front, inner, rfl, hinner⟩ := h
  have hne : inner ≠ [] := by
    rintro rfl
    exact absurd (hcloses.of_append (List.cons_ne_nil _ _)).mem (by decide)
  rw [← List.singleton_append, ← List.append_assoc] at hcloses
  obtain ⟨inner, rfl⟩ := (hcloses.of_append hne).exists_last
  exact ⟨before ++ front, inner, by simp, hinner⟩

/-- Of a parameter the brackets are complete. -/
theorem cut_parameter_misses {f : Fragment} (h : IsParameter f.text) :
    Misses f (Torn f.text) (cut f) := by
  generalize hf : f.text = t at h
  cases h with
  | @named head word gap args hword hgap hargs =>
    have hends : EndsName (gap ++ args) := by
      refine .blank_append hgap ?_
      cases hargs with
      | none => exact .nil
      | brackets => exact .cons (by decide) (by decide) _
    rw [cut_word .nil hword (hends.endsAt head) hf]
    refine cutWord_misses (parameters_misses fun rest hnext => ?_) _ _
    cases hargs with
    | none =>
      rw [List.append_nil, skipSeparator, Text.trimStart_blank hgap] at hnext
      cases hnext
    | @brackets inner hinner =>
      have hskip : skipSeparator (gap ++ '<' :: inner) = '<' :: inner :=
        skipSeparator_append (.blank hgap) .nil (by decide) (by decide) inner
      cases hskip.symm.trans hnext
      have hcloses : Closes rest := ⟨0, hinner⟩
      refine (parametersFrom_misses f rest).mono fun hmissing => ?_
      have hopen := hmissing.resolve_right (not_not_intro hcloses)
      have htorn := hopen.torn hcloses (word ++ gap ++ ['<'])
      rwa [List.append_assoc, List.append_assoc] at htorn
  | nameless hargs =>
    have hmissing : readHead f (Text.trimStart f.text) = .error ⟨f.position f.text, .missingName⟩ := by
      rw [hf]
      cases hargs <;> rfl
    rw [cut, hmissing]
    exact .error (by simp [StopsFor])

end Cql.TypeName
