import Cql.Proofs.TypeText

/-!
What was cut out of a text is cut out wherever the same characters stand. Each step takes a front of the
text it is given and looks no further than the character behind it, so that the end of the text may be
another one.
-/

namespace Cql.TypeName

open Text (Blank)

/-- The front of a text decides how it starts, as far as there is one. -/
theorem head?_append_congr {rest other : Text} (h : other.head? = rest.head?) (front : Text) :
    (front ++ other).head? = (front ++ rest).head? := by
  cases front with
  | nil => exact h
  | cons c front => rfl

/-! ## Names and separators -/

/-- A name that was read stands there as it is written. -/
theorem readHead_eq_ok {f : Fragment} {t rest : Text} {head : Head}
    (h : readHead f t = .ok (head, rest)) :
    ∃ word, IsHead head word ∧ t = word ++ rest ∧ head.EndsAt rest := by
  unfold readHead at h
  split at h
  · next hquote =>
    obtain ⟨inner, rfl⟩ := List.head?_eq_some_iff.1 hquote
    simp only [Scanner.skipIdentifier] at h
    cases hname : Scanner.afterQuotedName inner with
    | none => simp [hname] at h
    | some behind =>
      obtain ⟨name, rfl, hends⟩ := Scanner.afterQuotedName_eq_some hname
      have hwhole : '"' :: (Identifier.double name ++ '"' :: behind) =
          Identifier.quoted name ++ behind := by simp [Identifier.quoted]
      have hinner : ((Identifier.quoted name).drop 1).dropLast = Identifier.double name := by
        simp [Identifier.quoted]
      simp only [hname, hwhole, Scanner.consumed_append, hinner, Identifier.undouble_double] at h
      split at h
      · cases h
      · next hne =>
        cases h
        refine ⟨Identifier.quoted name, .quoted (by simpa using hne), hwhole, fun c hc => ?_⟩
        have hother : c ≠ '"' := fun heq => hends (heq ▸ hc)
        simpa [Head.ends] using hother
  · dsimp only [Text.spanWhile] at h
    split at h
    · cases h
    · next hne =>
      cases h
      refine ⟨t.takeWhile Identifier.isNameChar,
        .bare (by simpa using hne) (List.all_eq_true.1 List.all_takeWhile),
        List.takeWhile_append_dropWhile.symm, fun c hc => ?_⟩
      have hstop := List.head?_dropWhile_not Identifier.isNameChar t
      rw [hc] at hstop
      simpa [Head.ends] using hstop

/-- A separator that was skipped is one in front of any text that goes on in the same way. -/
def Separates (sep : Text) (c : Char) : Prop := ∀ r, skipSeparator (sep ++ c :: r) = c :: r

theorem skipSeparator_eq_cons {t next : Text} {c : Char} (h : skipSeparator t = c :: next) :
    Text.isBlank c = false ∧
      ∃ sep, t = sep ++ c :: next ∧ Separates sep c ∧ (∀ d ∈ sep, d = ',' ∨ Text.isBlank d = true) := by
  unfold skipSeparator at h
  obtain ⟨gap, hgap, ht⟩ := Text.exists_blank_append t
  split at h
  · next rest hrest =>
    obtain ⟨back, hback, hnext⟩ := Text.exists_blank_append rest
    have hc := Text.isBlank_of_trimStart h
    rw [hrest] at ht
    rw [h] at hnext
    refine ⟨hc, gap ++ ',' :: back, by rw [ht, hnext]; simp, fun r => ?_, fun d hd => ?_⟩
    · have hcomma : Text.trimStart (gap ++ ',' :: back ++ c :: r) = ',' :: (back ++ c :: r) := by
        rw [List.append_assoc, Text.trimStart_append hgap]
        exact Text.trimStart_cons (by decide) _
      rw [skipSeparator, hcomma]
      show Text.trimStart (back ++ c :: r) = c :: r
      rw [Text.trimStart_append hback, Text.trimStart_cons hc]
    · rcases List.mem_append.1 hd with hd | hd
      · exact .inr (hgap d hd)
      · rcases List.mem_cons.1 hd with rfl | hd
        · exact .inl rfl
        · exact .inr (hback d hd)
  · next hcomma =>
    have hc := Text.isBlank_of_trimStart h
    have hne : c ≠ ',' := by
      rintro rfl
      exact hcomma next h
    rw [h] at ht
    refine ⟨hc, gap, ht, fun r => ?_, fun d hd => .inr (hgap d hd)⟩
    exact skipSeparator_append (.blank hgap) .nil hc hne r

/-- Nothing but a separator: blanks, or blanks around one comma. -/
theorem skipSeparator_eq_nil {t : Text} (h : skipSeparator t = []) :
    Blank t ∨ ∃ gap back, Blank gap ∧ Blank back ∧ t = gap ++ ',' :: back := by
  unfold skipSeparator at h
  obtain ⟨gap, hgap, ht⟩ := Text.exists_blank_append t
  split at h
  · next back hback =>
    rw [hback] at ht
    exact .inr ⟨gap, back, hgap, Text.blank_of_trimStart h, ht⟩
  · exact .inl (Text.blank_of_trimStart h)

theorem not_mem_of_separator {sep : Text} (h : ∀ c ∈ sep, c = ',' ∨ Text.isBlank c = true) :
    '<' ∉ sep ∧ '>' ∉ sep := by
  constructor
  all_goals
    intro hmem
    rcases h _ hmem with hcomma | hblank
    · exact absurd hcomma (by decide)
    · exact absurd hblank (by decide)

/-! ## Arguments -/

/-- The bracket that closes is found behind the same characters. -/
theorem afterBrackets_frame {depth : Nat} {t rest : Text} (h : afterBrackets depth t = some rest) :
    ∃ front, t = front ++ rest ∧ ∀ other, afterBrackets depth (front ++ other) = some other := by
  fun_induction afterBrackets depth t with
  | case1 => cases h
  | case2 depth next ih =>
    obtain ⟨front, rfl, hfront⟩ := ih h
    refine ⟨'<' :: front, rfl, fun other => ?_⟩
    rw [List.cons_append, afterBrackets_open, hfront]
  | case3 next _ =>
    cases h
    exact ⟨['>'], rfl, fun other => afterBrackets_last other⟩
  | case4 next depth _ ih =>
    obtain ⟨front, rfl, hfront⟩ := ih h
    refine ⟨'>' :: front, rfl, fun other => ?_⟩
    rw [List.cons_append, afterBrackets_close, hfront]
  | case5 depth c next hopen hclose ih =>
    obtain ⟨front, rfl, hfront⟩ := ih h
    refine ⟨c :: front, rfl, fun other => ?_⟩
    rw [List.cons_append, afterBrackets_other hopen hclose, hfront]

/-- The bracket that closes stands right before what is behind it. -/
theorem exists_closing {depth : Nat} {t rest : Text} (h : afterBrackets depth t = some rest) :
    ∃ front, t = front ++ '>' :: rest := by
  fun_induction afterBrackets depth t with
  | case1 => cases h
  | case2 depth next ih =>
    obtain ⟨front, rfl⟩ := ih h
    exact ⟨'<' :: front, rfl⟩
  | case3 next _ =>
    cases h
    exact ⟨[], rfl⟩
  | case4 next depth _ ih =>
    obtain ⟨front, rfl⟩ := ih h
    exact ⟨'>' :: front, rfl⟩
  | case5 depth c next _ _ ih =>
    obtain ⟨front, rfl⟩ := ih h
    exact ⟨c :: front, rfl⟩

theorem skipArguments_frame {f : Fragment} {t rest : Text} (h : skipArguments f t = .ok rest) :
    ∃ args, t = args ++ rest ∧ ∀ (g : Fragment) (other : Text), other.head? = rest.head? →
      skipArguments g (args ++ other) = .ok other := by
  obtain ⟨gap, hgap, ht⟩ := Text.exists_blank_append t
  unfold skipArguments at h
  split at h
  · next hnil =>
    cases h
    rw [hnil] at ht
    refine ⟨gap, ht, fun g other hother => ?_⟩
    rw [List.head?_eq_none_iff.1 hother, List.append_nil, skipArguments, Text.trimStart_blank hgap]
  · next c next hcons =>
    have hc := Text.isBlank_of_trimStart hcons
    rw [hcons] at ht
    split at h
    · next hopen =>
      subst hopen
      split at h
      · next behind hbehind =>
        cases h
        obtain ⟨front, rfl, hfront⟩ := afterBrackets_frame hbehind
        refine ⟨gap ++ '<' :: front, by rw [ht]; simp, fun g other _ => ?_⟩
        rw [List.append_assoc, skipArguments, Text.trimStart_append hgap, List.cons_append,
          Text.trimStart_cons hc]
        dsimp only
        rw [if_pos rfl, hfront]
      · cases h
    · split at h
      · next hmark =>
        cases h
        refine ⟨gap, ht, fun g other hother => ?_⟩
        obtain ⟨more, rfl⟩ := List.head?_eq_some_iff.1 hother
        exact skipArguments_mark g hgap ⟨c, more, rfl, hmark⟩
      · cases h

theorem skipArguments_start {f : Fragment} {c : Char} {next rest : Text}
    (h : skipArguments f (c :: next) = .ok rest) (hc : Text.isBlank c = false) :
    c = '<' ∨ c = '>' ∨ c = ',' := by
  rw [skipArguments, Text.trimStart_cons hc] at h
  dsimp only at h
  split at h
  · next hopen => exact .inl hopen
  · split at h
    · next hmark => exact .inr hmark
    · cases h

/-- Where a name is missing, nothing is skipped. -/
theorem skipHead_mark (f : Fragment) {c : Char} (hc : c = '<' ∨ c = ',') (rest : Text) :
    skipHead f (c :: rest) = .ok (c :: rest) := by
  rcases hc with rfl | rfl
  · rfl
  · rfl

/-- One parameter: a name, or none where one is missing, and its arguments. -/
theorem parameter_frame {f : Fragment} {c : Char} {next after rest : Text}
    (hblank : Text.isBlank c = false) (hclose : c ≠ '>') (hhead : skipHead f (c :: next) = .ok after)
    (hargs : skipArguments f after = .ok rest) :
    ∃ part, c :: next = part ++ rest ∧ ∀ (g : Fragment) (other : Text), other.head? = rest.head? →
      ∃ behind, skipHead g (part ++ other) = .ok behind ∧ skipArguments g behind = .ok other := by
  obtain ⟨args, rfl, hframe⟩ := skipArguments_frame hargs
  unfold skipHead at hhead
  split at hhead
  · next head behind hread =>
    cases hhead
    obtain ⟨word, hword, htext, hends⟩ := readHead_eq_ok hread
    refine ⟨word ++ args, by rw [htext, List.append_assoc], fun g other hother => ?_⟩
    refine ⟨args ++ other, ?_, hframe g other hother⟩
    have hends' : head.EndsAt (args ++ other) := by
      intro d hd
      rw [head?_append_congr hother] at hd
      exact hends d hd
    rw [List.append_assoc, skipHead, hword.readHead_of_ends g hends']
  · split at hhead
    · next hmissing =>
      have htext : c :: next = args ++ rest := Except.ok.inj hhead
      refine ⟨args, htext, fun g other hother => ⟨args ++ other, ?_, hframe g other hother⟩⟩
      rw [← htext] at hargs
      have hfirst : (args ++ other).head? = some c := by
        rw [head?_append_congr hother, ← htext, List.head?_cons]
      obtain ⟨more, hmore⟩ := List.head?_eq_some_iff.1 hfirst
      rw [hmore]
      rcases skipArguments_start hargs hblank with hc | hc | hc
      · exact skipHead_mark g (.inl hc) more
      · exact absurd hc hclose
      · exact skipHead_mark g (.inr hc) more
    · cases hhead

/-! ## Lists of parameters -/

/-- Fragments with the same texts. -/
def SameTexts (fragments others : List Fragment) : Prop :=
  fragments.map (·.text) = others.map (·.text)

/-- Parameters that were cut out up to a bracket are cut out up to it in front of any text. -/
theorem parametersFrom_frame {f : Fragment} {t behind : Text} {fragments : List Fragment}
    (h : parametersFrom f t = .ok (fragments, behind)) :
    ∃ inner, t = inner ++ '>' :: behind ∧ ∀ (g : Fragment) (other : Text), ∃ others,
      parametersFrom g (inner ++ '>' :: other) = .ok (others, other) ∧ SameTexts others fragments := by
  fun_induction parametersFrom f t generalizing fragments behind with
  | case1 => cases h
  | case2 t next hnext =>
    cases h
    obtain ⟨-, sep, rfl, hsep, -⟩ := skipSeparator_eq_cons hnext
    exact ⟨sep, rfl, fun g other => ⟨[], parametersFrom_close g (hsep other), rfl⟩⟩
  | case3 => cases h
  | case4 => cases h
  | case5 t c next hnext hclose after hhead rest hargs _ ih =>
    obtain ⟨⟨more, behind'⟩, hmore, hok⟩ := bind_ok_iff.1 h
    cases hok
    obtain ⟨inner, rfl, hframe⟩ := ih hmore
    obtain ⟨hblank, sep, rfl, hsep, -⟩ := skipSeparator_eq_cons hnext
    obtain ⟨part, hpart, hparameter⟩ := parameter_frame hblank hclose hhead hargs
    refine ⟨sep ++ (part ++ inner), by rw [hpart]; simp, fun g other => ?_⟩
    obtain ⟨others, hothers, hsame⟩ := hframe g other
    have hsome : (inner ++ '>' :: other).head? = (inner ++ '>' :: behind).head? :=
      head?_append_congr (show ('>' :: other).head? = ('>' :: behind).head? from rfl) inner
    obtain ⟨after', hhead', hargs'⟩ := hparameter g _ hsome
    have hfirst : (part ++ (inner ++ '>' :: other)).head? = some c := by
      rw [head?_append_congr hsome, ← hpart, List.head?_cons]
    obtain ⟨next', hnext'⟩ := List.head?_eq_some_iff.1 hfirst
    have hskip : skipSeparator (sep ++ (part ++ inner) ++ '>' :: other) = c :: next' := by
      rw [List.append_assoc, List.append_assoc, hnext', hsep]
    rw [hnext'] at hhead'
    refine ⟨g.between (c :: next') (inner ++ '>' :: other) :: others, ?_, ?_⟩
    · rw [parametersFrom_cons g hskip hclose hhead' hargs', hothers]
      rfl
    · have hthere : (f.between (c :: next) (inner ++ '>' :: behind)).text = part := by
        rw [Fragment.between, hpart, Scanner.consumed_append]
      have hhere : (g.between (c :: next') (inner ++ '>' :: other)).text = part := by
        rw [Fragment.between, ← hnext', Scanner.consumed_append]
      rw [SameTexts, List.map_cons, List.map_cons, hthere, hhere, hsame]

/-- So are the parameters behind a name, if there are any brackets at all. -/
theorem parameters_frame {f : Fragment} {t behind : Text} {fragments : List Fragment}
    (h : parameters f t = .ok (fragments, behind)) :
    skipSeparator t = [] ∧ fragments = [] ∧ behind = [] ∨
    ∃ sep inner, t = sep ++ '<' :: inner ++ '>' :: behind ∧ Separates sep '<' ∧
      (∀ c ∈ sep, c = ',' ∨ Text.isBlank c = true) ∧
      ∀ (g : Fragment) (other : Text), ∃ others,
        parameters g (sep ++ '<' :: inner ++ '>' :: other) = .ok (others, other) ∧
          SameTexts others fragments := by
  unfold parameters at h
  split at h
  · next hnone =>
    cases h
    exact .inl ⟨hnone, rfl, rfl⟩
  · next c rest hcons =>
    split at h
    · next hopen =>
      subst hopen
      obtain ⟨-, sep, rfl, hsep, hchars⟩ := skipSeparator_eq_cons hcons
      obtain ⟨inner, rfl, hframe⟩ := parametersFrom_frame h
      refine .inr ⟨sep, inner, by simp, hsep, hchars, fun g other => ?_⟩
      obtain ⟨others, hothers, hsame⟩ := hframe g other
      refine ⟨others, ?_, hsame⟩
      have hskip : skipSeparator (sep ++ '<' :: inner ++ '>' :: other) =
          '<' :: (inner ++ '>' :: other) := by
        rw [List.append_assoc, List.cons_append, hsep]
      rw [parameters, hskip]
      dsimp only
      rw [if_pos rfl, hothers]
    · cases h

end Cql.TypeName
