import Cql.Proofs.FrozenTypes
import Cql.Proofs.ParameterFrames
import Cql.Proofs.TypeCuts
import Cql.Proofs.TypeLevels
import Mathlib.Data.List.Infix

/-!
Types as parameters of other types. A parameter is cut out by its name and by counting brackets, before
anybody reads it; where that finds its end, it is read as it would be alone.
-/

namespace Cql

namespace TypeName

open Text (Blank)

/-! ## Counting brackets -/

/-- No bracket is closed that is not open, and none is left open. -/
def Paired (t : Text) : Prop :=
  (∀ front ∈ t.inits, front.count '>' ≤ front.count '<') ∧ t.count '>' = t.count '<'

instance (t : Text) : Decidable (Paired t) := inferInstanceAs (Decidable (_ ∧ _))

/-- How many brackets are open behind a character. -/
theorem afterBrackets_cons {c : Char} {depth : Nat} (h : [c].count '>' ≤ depth + [c].count '<')
    (rest : Text) :
    afterBrackets depth (c :: rest) =
      afterBrackets (depth + [c].count '<' - [c].count '>') rest := by
  by_cases hopen : c = '<'
  · subst hopen
    exact afterBrackets_open depth rest
  · by_cases hclose : c = '>'
    · subst hclose
      cases depth with
      | zero => exact absurd h (by decide)
      | succ depth => exact afterBrackets_close depth rest
    · rw [List.count_singleton, List.count_singleton, if_neg (by simpa using hopen),
        if_neg (by simpa using hclose)]
      exact afterBrackets_other hopen hclose depth rest

/-- How many are open behind a text that closes no others than those that are open. -/
theorem afterBrackets_append {t : Text} {depth : Nat}
    (h : ∀ front, front <+: t → front.count '>' ≤ depth + front.count '<') (rest : Text) :
    afterBrackets depth (t ++ rest) = afterBrackets (depth + t.count '<' - t.count '>') rest := by
  induction t generalizing depth with
  | nil => rfl
  | cons c t ih =>
    have hcount : ∀ (a : Char) (front : Text), (c :: front).count a = [c].count a + front.count a :=
      fun a front => by rw [← List.singleton_append, List.count_append]
    have hfirst := h [c] (List.cons_prefix_cons.2 ⟨rfl, List.nil_prefix⟩)
    rw [List.cons_append, afterBrackets_cons hfirst, ih fun front hprefix => ?_]
    · rw [hcount '<' t, hcount '>' t]
      congr 1
      omega
    · have := h (c :: front) (List.cons_prefix_cons.2 ⟨rfl, hprefix⟩)
      rw [hcount '<' front, hcount '>' front] at this
      omega

theorem Paired.balanced {t : Text} (h : Paired t) : Balanced t := by
  intro depth rest
  rw [afterBrackets_append fun front hprefix => ?_]
  · rw [h.2, Nat.add_sub_cancel]
  · exact (h.1 front ((List.mem_inits front t).2 hprefix)).trans (Nat.le_add_left _ _)

/-- What stands in front of the first opening bracket. -/
def beforeBrackets (t : Text) : Text := t.takeWhile (· != '<')

/-- What stands between the first opening bracket and the last closing one. -/
def insideBrackets (t : Text) : Text :=
  (((t.dropWhile (· != '<')).drop 1).reverse.dropWhile (· != '>')).tail.reverse

/-- Behind the name there is no bracket, or no comma stands before the first one, and the brackets
inside of it are paired. Those of quoted names are counted as well. -/
def Cuttable (t : Text) : Prop :=
  match readHead ⟨t, 0⟩ (Text.trimStart t) with
  | .ok (_, rest) =>
    '<' ∈ rest → ',' ∉ beforeBrackets rest ∧ Paired (insideBrackets rest)
  | .error _ => True

instance (t : Text) : Decidable (Cuttable t) :=
  match h : readHead ⟨t, 0⟩ (Text.trimStart t) with
  | .ok (_, rest) =>
    decidable_of_iff ('<' ∈ rest → ',' ∉ beforeBrackets rest ∧ Paired (insideBrackets rest))
      (by rw [Cuttable, h])
  | .error _ => isTrue (by rw [Cuttable, h]; trivial)

section Brackets

variable {sep : Text} (hsep : '<' ∉ sep)

include hsep

theorem beforeBrackets_append (rest : Text) : beforeBrackets (sep ++ '<' :: rest) = sep := by
  have hother : ∀ c ∈ sep, (c != '<') = true := fun c hc => by
    simpa using fun heq : c = '<' => hsep (heq ▸ hc)
  rw [beforeBrackets, List.takeWhile_append_of_pos hother, List.takeWhile_cons_of_neg (by simp),
    List.append_nil]

theorem insideBrackets_append {after : Text} (hafter : '>' ∉ after) (inner : Text) :
    insideBrackets (sep ++ '<' :: inner ++ '>' :: after) = inner := by
  have hother : ∀ c ∈ sep, (c != '<') = true := fun c hc => by
    simpa using fun heq : c = '<' => hsep (heq ▸ hc)
  have hback : ∀ c ∈ after.reverse, (c != '>') = true := fun c hc => by
    simpa using fun heq : c = '>' => hafter (heq ▸ List.mem_reverse.1 hc)
  rw [insideBrackets, List.append_assoc, List.cons_append, List.dropWhile_append_of_pos hother,
    List.dropWhile_cons_of_neg (by simp), List.drop_one, List.tail_cons, List.reverse_append,
    List.reverse_cons, List.append_assoc, List.dropWhile_append_of_pos hback, List.singleton_append,
    List.dropWhile_cons_of_neg (by simp), List.tail_cons, List.reverse_reverse]

end Brackets

/-! ## Texts that are cut in the same way -/

/-- Behind a name the second text gives the same parameters as the first one does. -/
def SameArguments (rest other : Text) : Prop :=
  (Blank rest → Blank other) ∧
  ∀ (f : Fragment) (fragments : List Fragment) (behind : Text),
    parameters f rest = .ok (fragments, behind) → Blank behind →
    ∀ g : Fragment, ∃ others behind', parameters g other = .ok (others, behind') ∧
      SameTexts others fragments ∧ Blank behind'

theorem SameArguments.refl (rest : Text) : SameArguments rest rest := by
  refine ⟨id, fun f fragments behind h hblank g => ?_⟩
  rcases parameters_frame h with ⟨hnone, rfl, rfl⟩ | ⟨sep, inner, rfl, -, -, hframe⟩
  · exact ⟨[], [], by rw [parameters, hnone], rfl, .nil⟩
  · obtain ⟨others, hothers, hsame⟩ := hframe g behind
    exact ⟨others, behind, hothers, hsame, hblank⟩

/-- A separator alone is no parameter, nor are blanks. -/
theorem SameArguments.none {rest other : Text} (hrest : skipSeparator rest = []) (hother : Blank other) :
    SameArguments rest other := by
  refine ⟨fun _ => hother, fun f fragments behind h _ g => ⟨[], [], ?_, ?_, .nil⟩⟩
  · rw [parameters, skipSeparator, Text.trimStart_blank hother]
  · rw [parameters, hrest] at h
    cases h
    rfl

/-- Other blanks may stand behind the closing bracket. -/
theorem SameArguments.brackets {sep inner after other : Text} (hsep : '<' ∉ sep)
    (hafter : Blank after) (hother : Blank other) :
    SameArguments (sep ++ '<' :: inner ++ '>' :: after) (sep ++ '<' :: inner ++ '>' :: other) := by
  refine ⟨fun h => absurd (h '<' (by simp)) (by decide), fun f fragments behind h hblank g => ?_⟩
  rcases parameters_frame h with ⟨hnone, -, -⟩ | ⟨sep', inner', heq, -, hchars, hframe⟩
  · have hchars : ∀ c ∈ sep ++ '<' :: inner ++ '>' :: after, c = ',' ∨ Text.isBlank c = true := by
      rcases skipSeparator_eq_nil hnone with hall | ⟨gap, back, hgap, hback, heq⟩
      · exact fun c hc => .inr (hall c hc)
      · rw [heq]
        exact List.forall_mem_append.2 ⟨fun c hc => .inr (hgap c hc),
          List.forall_mem_cons.2 ⟨.inl rfl, fun c hc => .inr (hback c hc)⟩⟩
    exact absurd (by simp) (not_mem_of_separator hchars).1
  · -- the brackets are those that the parameters were cut out of
    have hsep' := (not_mem_of_separator hchars).1
    have hbefore := congrArg beforeBrackets heq
    have hinside := congrArg insideBrackets heq
    rw [insideBrackets_append hsep (not_mem_of_blank hafter).2,
      insideBrackets_append hsep' (not_mem_of_blank hblank).2] at hinside
    rw [List.append_assoc, List.append_assoc, List.cons_append, List.cons_append,
      beforeBrackets_append hsep, beforeBrackets_append hsep'] at hbefore
    subst hbefore hinside
    obtain ⟨others, hothers, hsame⟩ := hframe g other
    exact ⟨others, other, hothers, hsame, hother⟩

/-- Two texts with one name, behind which they give the same parameters. -/
inductive SameType : Text → Text → Prop
  | mk {before front word rest other : Text} {head : Head} (hbefore : Blank before)
    (hfront : Blank front) (hword : IsHead head word) (hrest : head.EndsAt rest)
    (hother : head.EndsAt other) (hsame : SameArguments rest other) :
    SameType (before ++ (word ++ rest)) (front ++ (word ++ other))

/-- Two cuts of one form with the same parameters, and with blanks at most behind the second one. -/
def Cut.Same (d c : Cut) : Prop :=
  d.form = c.form ∧ SameTexts d.parts c.parts ∧ Blank d.behind

section Same

variable {f : Fragment} {rest other : Text} (hsame : SameArguments rest other) {c : Cut}
  (hbehind : Blank c.behind)

include hsame hbehind

theorem cutFixed_same {keyword : TypeKeyword} {form : TypeName} {start : Text}
    (h : cutFixed f keyword form start rest = .ok c) (g : Fragment) (start' : Text) :
    ∃ d, cutFixed g keyword form start' other = .ok d ∧ d.Same c := by
  obtain ⟨⟨fragments, behind⟩, hparameters, h⟩ := bind_ok_iff.1 h
  dsimp only at h
  split at h
  · next hlength =>
    cases h
    obtain ⟨others, behind', hothers, htexts, hblank⟩ :=
      hsame.2 f fragments behind hparameters hbehind g
    have hlength' : others.length = fragments.length := by
      simpa using congrArg List.length htexts
    refine ⟨⟨form, others, behind'⟩, ?_, rfl, htexts, hblank⟩
    rw [cutFixed, hothers, ok_bind]
    dsimp only
    rw [if_pos (hlength'.trans hlength)]
  · cases h

theorem cutKeyword_same {keyword : TypeKeyword} {start : Text}
    (h : cutKeyword f keyword start rest = .ok c) (g : Fragment) (start' : Text) :
    ∃ d, cutKeyword g keyword start' other = .ok d ∧ d.Same c := by
  cases keyword with
  | native type =>
    cases h
    exact ⟨_, rfl, rfl, rfl, hsame.1 hbehind⟩
  | empty =>
    cases h
    exact ⟨_, rfl, rfl, rfl, hsame.1 hbehind⟩
  | list => exact cutFixed_same hsame hbehind h g start'
  | set => exact cutFixed_same hsame hbehind h g start'
  | map => exact cutFixed_same hsame hbehind h g start'
  | frozen => exact cutFixed_same hsame hbehind h g start'
  | tuple =>
    obtain ⟨⟨fragments, behind⟩, hparameters, h⟩ := bind_ok_iff.1 h
    cases h
    obtain ⟨others, behind', hothers, htexts, hblank⟩ :=
      hsame.2 f fragments behind hparameters hbehind g
    exact ⟨⟨.tuple [], others, behind'⟩, by rw [cutKeyword, hothers]; rfl, rfl, htexts, hblank⟩

theorem cutWord_same {head : Head} {start : Text} (h : cutWord f start head rest = .ok c)
    (g : Fragment) (start' : Text) : ∃ d, cutWord g start' head other = .ok d ∧ d.Same c := by
  cases head with
  | quoted name =>
    cases h
    exact ⟨_, rfl, rfl, rfl, hsame.1 hbehind⟩
  | bare name =>
    simp only [cutWord] at h ⊢
    split at h
    · exact cutKeyword_same hsame hbehind h g start'
    · cases h
      exact ⟨_, rfl, rfl, rfl, hsame.1 hbehind⟩

end Same

theorem cut_same {f g : Fragment} {c : Cut} (h : SameType f.text g.text) (hcut : cut f = .ok c)
    (hbehind : Blank c.behind) : ∃ d, cut g = .ok d ∧ d.Same c := by
  generalize hs : f.text = s at h
  generalize ht : g.text = t at h
  obtain ⟨hbefore, hfront, hword, hrest, hother, hsame⟩ := h
  rw [cut_word hbefore hword hrest hs] at hcut
  rw [cut_word hfront hword hother ht]
  exact cutWord_same hsame hbehind hcut g _

/-- A text that was cut has a name in front, and blanks at most before it. -/
theorem exists_head_of_cut {f : Fragment} {c : Cut} (h : cut f = .ok c) :
    ∃ before word rest head, Blank before ∧ IsHead head word ∧ head.EndsAt rest ∧
      f.text = before ++ (word ++ rest) := by
  obtain ⟨⟨head, rest⟩, hread, -⟩ := bind_ok_iff.1 h
  obtain ⟨word, hword, hstart, hends⟩ := readHead_eq_ok hread
  obtain ⟨before, hbefore, htext⟩ := Text.exists_blank_append f.text
  exact ⟨before, word, rest, head, hbefore, hword, hends, by rw [← hstart, ← htext]⟩

theorem SameType.refl_of_cut {f : Fragment} {c : Cut} (h : cut f = .ok c) : SameType f.text f.text := by
  obtain ⟨before, word, rest, head, hbefore, hword, hends, htext⟩ := exists_head_of_cut h
  rw [htext]
  exact .mk hbefore hbefore hword hends hends (.refl rest)

/-! ## Reading them -/

/-- Parameters with the same texts are read as the same types. -/
theorem forall₂_sameTexts {parameter other : Fragment → Except Stop TypeName}
    (hother : ∀ p q e, SameTexts [q] [p] → parameter p = .ok e → other q = .ok e)
    {fragments others : List Fragment} {es : List TypeName} (hsame : SameTexts others fragments)
    (h : List.Forall₂ (fun p e => parameter p = .ok e) fragments es) :
    List.Forall₂ (fun p e => other p = .ok e) others es := by
  induction h generalizing others with
  | nil =>
    rw [List.map_eq_nil_iff.1 hsame]
    exact .nil
  | @cons p e fragments es hp _ ih =>
    obtain ⟨q, others, rfl, hq, hothers⟩ := List.map_eq_cons_iff.1 hsame
    exact .cons (hother p q e (by rw [SameTexts, List.map_cons, List.map_cons, hq]) hp)
      (ih hothers)

theorem readWith_same {parameter other : Fragment → Except Stop TypeName}
    (hother : ∀ p q e, SameTexts [q] [p] → parameter p = .ok e → other q = .ok e) {f g : Fragment}
    {e : TypeName} (h : readWith parameter f = .ok e) (hsame : SameType f.text g.text) :
    readWith other g = .ok e := by
  obtain ⟨c, hcut, hbehind, hform, hparams⟩ := readWith_ok h
  obtain ⟨d, hcut', hform', htexts, hblank⟩ := cut_same hsame hcut (Text.blank_of_trimStart hbehind)
  have hread : d.parts.mapM other = .ok e.params :=
    mapM_ok_iff_forall₂.2 (forall₂_sameTexts hother htexts hparams)
  rw [readWith_cut, hcut', ok_bind, Cut.read, hread, ok_bind, ok_bind]
  dsimp only
  rw [finish_blank g _ hblank, hform', ← hform]

/-- What is read of a text does not depend on where it stands, nor on the limit that is told of. -/
theorem readBelow_same {limit other levels : Nat} {p q : Fragment} {e : TypeName}
    (hsame : SameTexts [q] [p]) (h : readBelow limit levels p = .ok e) :
    readBelow other levels q = .ok e := by
  induction levels generalizing p q e with
  | zero => cases h
  | succ levels ih =>
    rw [readBelow] at h ⊢
    obtain ⟨c, hcut, -⟩ := readWith_ok h
    have htext : q.text = p.text := List.head_eq_of_cons_eq hsame
    refine readWith_same (fun p q e hsame hp => ih hsame hp) h ?_
    rw [htext]
    exact .refl_of_cut hcut

/-! ## Cutting a type out of brackets -/

/-- Behind the name there is nothing to cut, or there are the parameters. -/
theorem cutWord_behind {f : Fragment} {start rest : Text} {head : Head} {c : Cut}
    (h : cutWord f start head rest = .ok c) :
    c.parts = [] ∧ c.behind = rest ∨ parameters f rest = .ok (c.parts, c.behind) := by
  have hfixed : ∀ keyword form, cutFixed f keyword form start rest = .ok c →
      parameters f rest = .ok (c.parts, c.behind) := by
    intro keyword form h
    obtain ⟨⟨fragments, behind⟩, hparameters, h⟩ := bind_ok_iff.1 h
    dsimp only at h
    split at h
    · cases h
      exact hparameters
    · cases h
  cases head with
  | quoted name =>
    cases h
    exact .inl ⟨rfl, rfl⟩
  | bare name =>
    simp only [cutWord] at h
    split at h
    · next keyword _ =>
      cases keyword with
      | native _ | empty =>
        cases h
        exact .inl ⟨rfl, rfl⟩
      | list | set | map | frozen => exact .inr (hfixed _ _ h)
      | tuple =>
        obtain ⟨⟨fragments, behind⟩, hparameters, h⟩ := bind_ok_iff.1 h
        cases h
        exact .inr hparameters
    · cases h
      exact .inl ⟨rfl, rfl⟩

section Enclosed

variable {before word rest behind : Text} {head : Head} (hbefore : Blank before)
  (hword : IsHead head word) (hrest : head.EndsAt rest) (g : Fragment)

include hbefore hword

/-- One parameter, of which the name and the arguments are known. -/
theorem parametersFrom_one {args tail : Text} (hends : head.EndsAt (args ++ tail))
    (hargs : skipArguments g (args ++ tail) = .ok tail) (htail : skipSeparator tail = '>' :: behind) :
    ∃ p : Fragment, p.text = word ++ args ∧
      parametersFrom g (before ++ (word ++ (args ++ tail))) = .ok ([p], behind) := by
  have hhead : skipHead g (word ++ (args ++ tail)) = .ok (args ++ tail) := by
    rw [skipHead, hword.readHead_of_ends g hends]
  obtain ⟨p, hp, hparameters⟩ := parametersFrom_part g (.blank .nil) hbefore hword hhead hargs
  rw [parametersFrom_close g htail] at hparameters
  exact ⟨p, hp, hparameters⟩

include hrest

/-- The same before a bracket, where the arguments are those of the type alone. -/
theorem parametersFrom_same {args tail : Text} (hsplit : rest ++ '>' :: behind = args ++ tail)
    (hends : EndsName (args ++ tail)) (hends' : head.EndsAt args)
    (hargs : skipArguments g (args ++ tail) = .ok tail)
    (htail : skipSeparator tail = '>' :: behind) (hsame : SameArguments rest args) :
    ∃ p, parametersFrom g (before ++ (word ++ rest) ++ '>' :: behind) = .ok ([p], behind) ∧
      SameType (before ++ (word ++ rest)) p.text := by
  obtain ⟨p, hp, heq⟩ := parametersFrom_one hbefore hword g (hends.endsAt head) hargs htail
  refine ⟨p, ?_, ?_⟩
  · rw [List.append_assoc, List.append_assoc, hsplit, heq]
  · rw [hp]
    exact .mk hbefore .nil hword hrest hends' hsame

/-- A name alone goes up to the bracket. -/
theorem parametersFrom_name (hblank : Blank rest) :
    ∃ p, parametersFrom g (before ++ (word ++ rest) ++ '>' :: behind) = .ok ([p], behind) ∧
      SameType (before ++ (word ++ rest)) p.text := by
  refine parametersFrom_same hbefore hword hrest g rfl ?_ hrest
    (skipArguments_mark g hblank ⟨'>', behind, rfl, .inl rfl⟩) ?_ (.refl rest)
  · exact .blank_append hblank (.cons (by decide) (by decide) behind)
  · exact skipSeparator_append (.blank .nil) .nil (by decide) (by decide) behind

end Enclosed

/-- A type is cut out as one parameter up to a bracket behind it, if its own brackets can be counted. -/
theorem parametersFrom_enclosed {f : Fragment} {c : Cut} (hcut : cut f = .ok c)
    (hbehind : Blank c.behind) (hcuttable : Cuttable f.text) (g : Fragment) (behind : Text) :
    ∃ p, parametersFrom g (f.text ++ '>' :: behind) = .ok ([p], behind) ∧ SameType f.text p.text := by
  obtain ⟨before, word, rest, head, hbefore, hword, hends, htext⟩ := exists_head_of_cut hcut
  rw [cut_word hbefore hword hends htext] at hcut
  rw [htext] at hcuttable ⊢
  rcases cutWord_behind hcut with ⟨-, hrest⟩ | hparameters
  · exact parametersFrom_name hbefore hword hends g (hrest ▸ hbehind)
  rcases parameters_frame hparameters with ⟨hnone, -, -⟩ | ⟨sep, inner, rfl, -, hchars, -⟩
  · rcases skipSeparator_eq_nil hnone with hrest | ⟨gap, back, hgap, hback, rfl⟩
    · exact parametersFrom_name hbefore hword hends g hrest
    · -- a tuple ends at the comma behind its name
      have hsplit : gap ++ ',' :: back ++ '>' :: behind = gap ++ ',' :: (back ++ '>' :: behind) := by
        simp
      refine parametersFrom_same hbefore hword hends g hsplit ?_ ?_
        (skipArguments_mark g hgap ⟨',', _, rfl, .inr rfl⟩) ?_ (.none hnone hgap)
      · exact .blank_append hgap (.cons (by decide) (by decide) _)
      · have hgap' := EndsName.blank_append hgap .nil
        rw [List.append_nil] at hgap'
        exact hgap'.endsAt head
      · exact skipSeparator_append (.comma .nil) hback (by decide) (by decide) behind
  · rw [Cuttable, trimStart_head hbefore hword, hword.readHead_of_ends _ hends] at hcuttable
    have hsep := (not_mem_of_separator hchars).1
    obtain ⟨hcomma, hpaired⟩ := hcuttable (by simp)
    rw [insideBrackets_append hsep (not_mem_of_blank hbehind).2] at hpaired
    rw [List.append_assoc, List.cons_append, beforeBrackets_append hsep] at hcomma
    have hblank : Blank sep := fun d hd => by
      rcases hchars d hd with rfl | h
      · exact absurd hd hcomma
      · exact h
    have hsplit : sep ++ '<' :: inner ++ '>' :: c.behind ++ '>' :: behind =
        sep ++ '<' :: inner ++ ['>'] ++ (c.behind ++ '>' :: behind) := by simp
    refine parametersFrom_same hbefore hword hends g hsplit ?_ ?_
      (skipArguments_brackets g hblank hpaired.balanced _) ?_ (.brackets hsep hbehind .nil)
    · simp only [List.append_assoc]
      exact .blank_append hblank (.cons (by decide) (by decide) _)
    · have hopen : EndsName (sep ++ ('<' :: inner ++ ['>'])) :=
        .blank_append hblank (.cons (by decide) (by decide) _)
      rw [List.append_assoc]
      exact hopen.endsAt head
    · exact skipSeparator_append (.blank .nil) hbehind (by decide) (by decide) behind

/-! ## Types of one parameter -/

/-- A keyword that takes one parameter makes an expression of the parameter alone. -/
def TakesOne (keyword : TypeKeyword) (form : TypeName) : Prop :=
  ∀ (f : Fragment) (start t : Text) (p : Fragment) (behind : Text),
    parameters f t = .ok ([p], behind) → cutKeyword f keyword start t = .ok ⟨form, [p], behind⟩

theorem takesOne_of_fixed {keyword : TypeKeyword} {form : TypeName} (hone : form.params.length = 1)
    (hkeyword : ∀ f start t, cutKeyword f keyword start t = cutFixed f keyword form start t) :
    TakesOne keyword form := by
  intro f start t p behind h
  rw [hkeyword, cutFixed, h, ok_bind]
  dsimp only
  rw [List.length_singleton, if_pos hone.symm]

theorem takesOne_list : TakesOne .list (.list .empty) := takesOne_of_fixed rfl fun _ _ _ => rfl

theorem takesOne_set : TakesOne .set (.set .empty) := takesOne_of_fixed rfl fun _ _ _ => rfl

theorem takesOne_frozen : TakesOne .frozen (.frozen .empty) := takesOne_of_fixed rfl fun _ _ _ => rfl

theorem takesOne_tuple : TakesOne .tuple (.tuple []) := by
  intro f start t p behind h
  rw [cutKeyword, h, ok_bind]

/-- A type is read as the parameter of a keyword, one level deeper. -/
theorem readBelow_enclosed {keyword : TypeKeyword} {form : TypeName} (hone : TakesOne keyword form)
    {limit other levels : Nat} {t : Text} {e : TypeName} (hcuttable : Cuttable t)
    (h : readBelow limit levels ⟨t, 0⟩ = .ok e) :
    readBelow other (levels + 1) ⟨keyword.name.toList ++ '<' :: (t ++ ['>']), 0⟩ =
      .ok (form.withParams [e]) := by
  cases levels with
  | zero => cases h
  | succ levels =>
    rw [readBelow] at h
    obtain ⟨c, hcut, hbehind, -⟩ := readWith_ok h
    let host : Fragment := ⟨keyword.name.toList ++ '<' :: (t ++ ['>']), 0⟩
    obtain ⟨p, hp, hsame⟩ :=
      parametersFrom_enclosed hcut (Text.blank_of_trimStart hbehind) hcuttable host []
    have hword : Keyword keyword keyword.name.toList := beq_self_eq_true _
    have hopen : EndsName ('<' :: (t ++ ['>'])) := .cons (by decide) (by decide) _
    have hparameters : parameters host ('<' :: (t ++ ['>'])) = .ok ([p], []) := by
      have hskip : skipSeparator ('<' :: (t ++ ['>'])) = '<' :: (t ++ ['>']) :=
        skipSeparator_append (.blank .nil) .nil (by decide) (by decide) _
      rw [parameters, hskip]
      dsimp only
      rw [if_pos rfl]
      exact hp
    have hcut : cut host = .ok ⟨form, [p], []⟩ := by
      rw [cut_word .nil hword.isHead (hopen.endsAt _) rfl, cutWord, hword.ofName?_eq]
      exact hone host _ _ p [] hparameters
    have hread : readBelow other (levels + 1) p = .ok e :=
      readWith_same (fun q r d htexts hq => readBelow_same htexts hq) h hsame
    rw [readBelow, readWith_cut, hcut, ok_bind, Cut.read, List.mapM_cons, hread, List.mapM_nil]
    rfl

theorem read_enclosed {keyword : TypeKeyword} {form : TypeName} (hone : TakesOne keyword form)
    {limit : Nat} {t : Text} {e : TypeName} (hcuttable : Cuttable t) (h : read limit t = .ok e) :
    read (limit + 1) (keyword.name.toList ++ '<' :: (t ++ ['>'])) = .ok (form.withParams [e]) :=
  read_eq_ok.2 (readBelow_enclosed hone hcuttable (read_eq_ok.1 h))

end TypeName

/-- What a text is read as alone, it is read as between the brackets of a collection, of a tuple and of a
frozen wrapper under a limit of one more, with the same names missing, if its own brackets can be
counted. -/
theorem TypePass.parse_enclosed (limit : Nat) (scope : TypeScope)
    (hstandard : scope.makeTuple = .tuple) (keyspace : String) (t : Text)
    (hcuttable : TypeName.Cuttable t) (type : ColumnType) (missing : List String)
    (h : parse limit scope keyspace false t = .ok ⟨type, missing⟩) :
    parse (limit + 1) scope keyspace false ("list<".toList ++ t ++ ['>']) =
      .ok ⟨.list type false, missing⟩ ∧
    parse (limit + 1) scope keyspace false ("set<".toList ++ t ++ ['>']) =
      .ok ⟨.set type false, missing⟩ ∧
    parse (limit + 1) scope keyspace false ("tuple<".toList ++ t ++ ['>']) =
      .ok ⟨.tuple [type], missing⟩ ∧
    parse (limit + 1) scope keyspace false ("frozen<".toList ++ t ++ ['>']) =
      .ok ⟨type.frozen, missing⟩ := by
  rw [parse_eq, map_ok_iff] at h
  obtain ⟨e, hread, hresolve⟩ := h
  have henclosed : ∀ keyword form, TypeName.TakesOne keyword form → ∀ opening : Text,
      opening = keyword.name.toList ++ ['<'] →
      parse (limit + 1) scope keyspace false (opening ++ t ++ ['>']) =
        .ok ((form.withParams [e]).resolve scope keyspace false) := by
    intro keyword form hone opening hopening
    have hwhole : opening ++ t ++ ['>'] = keyword.name.toList ++ '<' :: (t ++ ['>']) := by
      rw [hopening]
      simp
    rw [parse_eq, hwhole, TypeName.read_enclosed hone hcuttable hread, map_ok]
  refine ⟨?_, ?_, ?_, ?_⟩
  · rw [henclosed .list (.list .empty) TypeName.takesOne_list "list<".toList rfl,
      TypeName.withParams, TypeName.resolve, hresolve]
  · rw [henclosed .set (.set .empty) TypeName.takesOne_set "set<".toList rfl,
      TypeName.withParams, TypeName.resolve, hresolve]
  · rw [henclosed .tuple (.tuple []) TypeName.takesOne_tuple "tuple<".toList rfl,
      TypeName.withParams, TypeName.resolve, TypeName.resolveAll_eq, hstandard]
    simp [hresolve]
  · have htuple : ColumnType.Arranging scope.makeTuple := hstandard ▸ .standard
    rw [henclosed .frozen (.frozen .empty) TypeName.takesOne_frozen "frozen<".toList rfl,
      TypeName.withParams, TypeName.resolve, e.resolve_true keyspace htuple, hresolve]

/-- A quoted name with paired brackets, behind blanks: two levels alone, three between brackets. -/
theorem TypePass.parse_enclosed_quoted :
    TypeName.Cuttable " map < a , \"b<c>\" >".toList ∧
      parse 1 .none "ks" false " map < a , \"b<c>\" >".toList =
        .ok ⟨.map (.custom "a") (.custom "b<c>") false, ["a", "b<c>"]⟩ ∧
      parse 2 .none "ks" false "frozen< map < a , \"b<c>\" >>".toList =
        .ok ⟨.map (.custom "a") (.custom "b<c>") true, ["a", "b<c>"]⟩ := by
  have hcuttable : TypeName.Cuttable " map < a , \"b<c>\" >".toList := by decide
  have hparse : parse 1 .none "ks" false " map < a , \"b<c>\" >".toList =
      .ok ⟨.map (.custom "a") (.custom "b<c>") false, ["a", "b<c>"]⟩ := by decide +kernel
  obtain ⟨-, -, -, hfrozen⟩ :=
    parse_enclosed 1 .none rfl "ks" " map < a , \"b<c>\" >".toList hcuttable _ _ hparse
  exact ⟨hcuttable, hparse, hfrozen⟩

/-- A comma in front of the brackets, and a bracket in a quoted name that has no other one: alone these
are types, and between brackets they are none. -/
theorem TypePass.parse_enclosed_cut :
    (parse 1 .none "ks" false "list,<int>".toList = .ok ⟨.list (.native .int) false, []⟩ ∧
      ∀ resolved, parse 2 .none "ks" false "list<list,<int>>".toList ≠ .ok resolved) ∧
    (parse 1 .none "ks" false "list<\"a>b\">".toList = .ok ⟨.list (.custom "a>b") false, ["a>b"]⟩ ∧
      ∀ resolved, parse 2 .none "ks" false "list<list<\"a>b\">>".toList ≠ .ok resolved) := by
  have hcomma : parse 2 .none "ks" false "list<list,<int>>".toList =
      .error ⟨"list<list,<int>>".toList, 1, .parameterCount .list 1 2⟩ := by decide +kernel
  have hquoted : parse 2 .none "ks" false "list<list<\"a>b\">>".toList =
      .error ⟨"list<list<\"a>b\">>".toList, 15, .unexpected '"' .opening⟩ := by decide +kernel
  refine ⟨⟨by decide +kernel, fun resolved => ?_⟩, by decide +kernel, fun resolved => ?_⟩
  · rw [hcomma]
    intro h
    cases h
  · rw [hquoted]
    intro h
    cases h

end Cql
