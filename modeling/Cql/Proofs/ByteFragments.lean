import Cql.Type.BytePass
import Cql.Proofs.ByteSlices
import Cql.Proofs.ParameterFrames
import Mathlib.Data.List.Forall2
import Mathlib.Data.List.TakeWhile

/-!
Fragments over characters and over bytes. Both ways the same parameters are cut out of a fragment,
wherever it stands and whatever characters stand before it, and what is cut out stands in the input
again. Where a fragment has a flaw, there stands in the whole input what the flaw is about.
-/

namespace Cql

open Cql.TypeName (Stop Flaw Head)
open Text (byteSize byteSize_cons byteSize_append)

/-! ## Where a flaw stands -/

/-- The text from the position of a flaw on is what the flaw says. -/
def TypeName.Flaw.Names : Flaw → Text → Prop
  | .unexpected found _, t => t.head? = some found
  | .openBrackets, t => t.head? = some '<'
  | .parameterCount keyword expected got, t =>
    got ≠ expected ∧ Keyword keyword (t.takeWhile Identifier.isNameChar)
  | _, _ => True

def TypeName.Stop.PointsInto (input : Text) (stop : Stop) : Prop :=
  ∃ before t, input = before ++ t ∧ stop.position = before.length + 1 ∧ stop.flaw.Names t

namespace BytePass

/-- Work on characters and on bytes comes to answers that are related, or stops at the same flaw, which
points into the input. -/
inductive Agrees (input : Text) {α β : Type} (R : α → β → Prop) :
    Except Stop α → Except Halt β → Prop
  | ok {a : α} {b : β} (h : R a b) : Agrees input R (.ok a) (.ok b)
  | stop {stop : Stop} (h : stop.PointsInto input) : Agrees input R (.error stop) (.error (.stop stop))

namespace Agrees

variable {input : Text} {α β γ δ : Type} {R : α → β → Prop} {S : γ → δ → Prop}

theorem bind {x : Except Stop α} {y : Except Halt β} {next : α → Except Stop γ}
    {next' : β → Except Halt δ} (h : Agrees input R x y)
    (hnext : ∀ a b, x = .ok a → R a b → Agrees input S (next a) (next' b)) :
    Agrees input S (x >>= next) (y >>= next') := by
  cases h with
  | ok h => exact hnext _ _ rfl h
  | stop h => exact .stop h

theorem mono {R' : α → β → Prop} {x : Except Stop α} {y : Except Halt β} (h : Agrees input R x y)
    (hR : ∀ a b, R a b → R' a b) : Agrees input R' x y := by
  cases h with
  | ok h => exact .ok (hR _ _ h)
  | stop h => exact .stop h

end Agrees

/-! ## Fragments -/

/-- No name goes on from one text into the next. -/
def Apart (t behind : Text) : Prop :=
  t.getLast? = some '>' ∨ ∀ c, behind.head? = some c → Identifier.isNameChar c = false

/-- The same fragment of the input, over characters and over bytes. -/
def Lies (input : Text) (f : Fragment) (g : ByteFragment) : Prop :=
  ∃ before behind, input = before ++ (f.text ++ behind) ∧ f.offset = before.length ∧
    g = ⟨f.text, byteSize before⟩ ∧ Apart f.text behind

theorem positionAt_eq {p : BytePass} {before t : Text} (h : p.input = before ++ t) :
    p.positionAt (byteSize before) = before.length + 1 := by
  rw [positionAt, h, Slice.splitAt?_append]

variable {p : BytePass} {f : Fragment} {g : ByteFragment}

/-- Where a rest of a fragment stands in the input. -/
theorem Lies.rest {t : Text} (h : Lies p.input f g) (ht : t <:+ f.text) :
    ∃ before behind, p.input = before ++ (t ++ behind) ∧ f.position t = before.length + 1 ∧
      offsetOf g t = .ok (byteSize before) ∧ (t ≠ [] → Apart t behind) := by
  obtain ⟨before, behind, hinput, hoffset, rfl, hapart⟩ := h
  obtain ⟨front, hfront⟩ := ht
  refine ⟨before ++ front, behind, ?_, ?_, ?_, fun hne => ?_⟩
  · rw [hinput, ← hfront]
    simp only [List.append_assoc]
  · rw [Fragment.position, hoffset, ← hfront]
    simp only [List.length_append]
    omega
  · have hend : (⟨f.text, byteSize before⟩ : ByteFragment).endOffset =
        byteSize (before ++ front) + byteSize t := by
      rw [ByteFragment.endOffset, ← hfront, byteSize_append, byteSize_append, Nat.add_assoc]
    rw [offsetOf, hend, if_pos (Nat.le_add_left _ _), Nat.add_sub_cancel]
  · refine hapart.imp (fun hlast => ?_) id
    rwa [← hfront, List.getLast?_append_of_ne_nil _ hne] at hlast

section Flaws

variable {α β : Type} {R : α → β → Prop}

theorem flawAt_agrees {t : Text} {flaw : Flaw} (h : Lies p.input f g) (ht : t <:+ f.text)
    (hnames : ∀ behind, (t ≠ [] → Apart t behind) → flaw.Names (t ++ behind)) :
    Agrees p.input R (.error ⟨f.position t, flaw⟩) (p.flawAt g t flaw) := by
  obtain ⟨before, behind, hinput, hposition, hoffset, hapart⟩ := h.rest ht
  rw [flawAt, hoffset, ok_bind, positionAt_eq hinput, hposition]
  exact .stop ⟨before, _, hinput, rfl, hnames behind hapart⟩

theorem flawBehind_agrees {flaw : Flaw} (h : Lies p.input f g) (hnames : ∀ t, flaw.Names t) :
    Agrees p.input R (.error ⟨f.endPosition, flaw⟩) (p.flawBehind g flaw) := by
  obtain ⟨before, behind, hinput, hoffset, rfl, -⟩ := h
  rw [← List.append_assoc] at hinput
  have hend : (⟨f.text, byteSize before⟩ : ByteFragment).endOffset = byteSize (before ++ f.text) :=
    (byteSize_append _ _).symm
  have hposition : f.endPosition = (before ++ f.text).length + 1 := by
    rw [Fragment.endPosition, hoffset, List.length_append]
  rw [flawBehind, hend, positionAt_eq hinput, hposition]
  exact .stop ⟨_, behind, hinput, rfl, hnames behind⟩

end Flaws

/-! ## Names -/

/-- A word that was read, and the text behind it. -/
def HeadOf (t : Text) (a b : Head × Text) : Prop :=
  a = b ∧ a.2 <:+ t ∧ ∀ name, a.1 = .bare name → name = t.takeWhile Identifier.isNameChar

/-- A name is read over bytes as it is over characters, in whatever fragments. -/
theorem readHead_cases (p : BytePass) (f : Fragment) (g : ByteFragment) (t : Text) :
    (∃ word, TypeName.readHead f t = .ok word ∧ p.readHead g t = .ok word ∧ HeadOf t word word) ∨
    (TypeName.readHead f t = .error ⟨f.position t, .missingName⟩ ∧
      p.readHead g t = p.flawAt g t .missingName) ∨
    (TypeName.readHead f t = .error ⟨f.endPosition, .endOfInput⟩ ∧
      p.readHead g t = p.flawBehind g .endOfInput) := by
  rw [TypeName.readHead]
  split
  · next hquote =>
    obtain ⟨inner, rfl⟩ := List.head?_eq_some_iff.1 hquote
    rw [Scanner.skipIdentifier, readHead, Slice.endingQuote?_eq]
    cases hname : Scanner.afterQuotedName inner with
    | none => exact .inr (.inr ⟨rfl, rfl⟩)
    | some rest =>
      obtain ⟨name, rfl, -⟩ := Scanner.afterQuotedName_eq_some hname
      have hwhole : '"' :: (Identifier.double name ++ '"' :: rest) = Identifier.quoted name ++ rest := by
        simp [Identifier.quoted]
      have hinner : ((Identifier.quoted name).drop 1).dropLast = Identifier.double name := by
        simp [Identifier.quoted]
      have hplace : 0 + byteSize (Identifier.double name ++ '"' :: rest) - byteSize rest - 1 + 2 =
          byteSize (Identifier.quoted name) := by
        have hquote : ('"').utf8Size = 1 := rfl
        rw [byteSize_append, byteSize_cons, Slice.byteSize_quoted, byteSize_cons, hquote]
        omega
      rw [Option.map_some]
      dsimp only
      rw [hplace, hwhole, Slice.splitAt?_append, Scanner.consumed_append, hinner]
      simp only [taken, ok_bind, Slice.splitAt?_closing, Slice.splitAt?_opening]
      split
      · exact .inr (.inl ⟨rfl, rfl⟩)
      · exact .inl ⟨_, rfl, rfl, rfl, ⟨_, rfl⟩, by simp⟩
  · next hquote =>
    rw [readHead]
    · simp only [Slice.span?_eq, taken, ok_bind]
      split
      · exact .inr (.inl ⟨rfl, rfl⟩)
      · exact .inl ⟨_, rfl, rfl, rfl, List.dropWhile_suffix _, by simp [Text.spanWhile]⟩
    · rintro inner rfl
      exact hquote rfl

theorem readHead_agrees {t : Text} (h : Lies p.input f g) (ht : t <:+ f.text) :
    Agrees p.input (HeadOf t) (TypeName.readHead f t) (p.readHead g t) := by
  rcases readHead_cases p f g t with ⟨word, hread, hread', hword⟩ | ⟨hread, hread'⟩ | ⟨hread, hread'⟩ <;>
    rw [hread, hread']
  · exact .ok hword
  · exact flawAt_agrees h ht fun _ _ => trivial
  · exact flawBehind_agrees h fun _ => trivial

/-! ## Parameters -/

/-- Behind a comma only blanks are passed. -/
theorem passed_separates (t : Text) :
    Slice.passed separates true t = byteSize (t.takeWhile Text.isBlank) := by
  induction t with
  | nil => rfl
  | cons c t ih =>
    rw [Slice.passed, separates, if_neg (by simp), List.takeWhile_cons]
    cases Text.isBlank c with
    | true => rw [if_pos rfl, if_pos rfl, byteSize_cons, ← ih]
    | false => rfl

theorem exists_separator (t : Text) : ∃ sep, t = sep ++ TypeName.skipSeparator t ∧
    Slice.passed separates false t = byteSize sep := by
  induction t with
  | nil => exact ⟨[], rfl, rfl⟩
  | cons c t ih =>
    rw [Slice.passed, separates]
    by_cases hcomma : c = ','
    · subst hcomma
      refine ⟨',' :: t.takeWhile Text.isBlank, ?_, ?_⟩
      · have hskip : TypeName.skipSeparator (',' :: t) = t.dropWhile Text.isBlank := rfl
        rw [hskip, List.cons_append, List.takeWhile_append_dropWhile]
      · rw [if_pos ⟨rfl, rfl⟩, byteSize_cons, ← passed_separates]
    · rw [if_neg fun h => hcomma h.1]
      cases hblank : Text.isBlank c with
      | true =>
        obtain ⟨sep, ht, hsize⟩ := ih
        refine ⟨c :: sep, ?_, ?_⟩
        · have hskip : TypeName.skipSeparator (c :: t) = TypeName.skipSeparator t := by
            rw [TypeName.skipSeparator, TypeName.skipSeparator, Text.trimStart,
              List.dropWhile_cons_of_pos hblank]
            rfl
          rw [hskip, List.cons_append, ← ht]
        · rw [if_pos rfl, byteSize_cons, ← hsize]
      | false =>
        refine ⟨[], ?_, rfl⟩
        rw [TypeName.skipSeparator, Text.trimStart_cons hblank]
        split
        · next heq =>
          cases heq
          exact absurd rfl hcomma
        · rfl

theorem skipSeparator_eq (t : Text) : skipSeparator t = .ok (TypeName.skipSeparator t) := by
  obtain ⟨sep, ht, hsize⟩ := exists_separator t
  have hsplit := Slice.splitAt?_append sep (TypeName.skipSeparator t)
  rw [← ht] at hsplit
  rw [skipSeparator, hsize, hsplit]
  rfl

theorem skipSeparator_suffix (t : Text) : TypeName.skipSeparator t <:+ t := by
  obtain ⟨sep, ht, -⟩ := exists_separator t
  exact ⟨sep, ht.symm⟩

/-- The bracket that closes is found at the same place. -/
theorem closingBracket_eq (place depth : Nat) (t : Text) :
    closingBracket place (depth + 1) t = .ok ((TypeName.afterBrackets depth t).map fun rest =>
      place + byteSize t - byteSize rest) := by
  have hopen : ('<').utf8Size = 1 := rfl
  have hclose : ('>').utf8Size = 1 := rfl
  fun_induction TypeName.afterBrackets depth t generalizing place with
  | case1 => rfl
  | case2 depth rest ih =>
    rw [closingBracket, if_pos rfl, ih, byteSize_cons, Nat.add_assoc]
  | case3 rest hne =>
    rw [closingBracket, if_neg hne, if_pos rfl, if_pos rfl, Option.map_some, byteSize_cons, hclose,
      ← Nat.add_assoc, Nat.add_sub_cancel]
  | case4 rest depth hne ih =>
    rw [closingBracket, if_neg hne, if_pos rfl, if_neg (Nat.succ_ne_zero depth), ih, byteSize_cons,
      Nat.add_assoc]
  | case5 depth c rest hopen hclose ih =>
    rw [closingBracket, if_neg hopen, if_neg hclose, ih, byteSize_cons, Nat.add_assoc]

/-- A rest of a text. -/
def RestOf (t a b : Text) : Prop := a = b ∧ a <:+ t

theorem skipHead_agrees {t : Text} (h : Lies p.input f g) (ht : t <:+ f.text) :
    Agrees p.input (RestOf t) (TypeName.skipHead f t) (p.skipHead g t) := by
  have hread := readHead_agrees h ht
  rw [TypeName.skipHead, skipHead]
  generalize TypeName.readHead f t = x, p.readHead g t = y at hread
  cases hread with
  | ok hword =>
    obtain ⟨rfl, hrest, -⟩ := hword
    exact .ok ⟨rfl, hrest⟩
  | stop hstop =>
    dsimp only
    split
    · exact .ok ⟨rfl, List.suffix_refl t⟩
    · exact .stop hstop

/-- A rest of a text behind a parameter, the name of which cannot go on there. -/
def Ended (t rest : Text) : Prop :=
  rest <:+ t ∧ (rest = [] ∨ (∃ c more, rest = c :: more ∧ (c = '>' ∨ c = ',')) ∨
    ∃ front, t = front ++ '>' :: rest)

theorem Ended.of_suffix {s t rest : Text} (h : Ended s rest) (hs : s <:+ t) : Ended t rest := by
  refine ⟨h.1.trans hs, h.2.imp_right (Or.imp_right ?_)⟩
  rintro ⟨front, rfl⟩
  obtain ⟨before, rfl⟩ := hs
  exact ⟨before ++ front, by rw [List.append_assoc]⟩

/-- Arguments are skipped over bytes as they are over characters, in whatever fragments. -/
theorem skipArguments_cases (p : BytePass) (f : Fragment) (g : ByteFragment) (t : Text) :
    (∃ rest, TypeName.skipArguments f t = .ok rest ∧ p.skipArguments g t = .ok rest ∧ Ended t rest) ∨
    ∃ flaw rest, TypeName.skipArguments f t = .error ⟨f.position rest, flaw⟩ ∧
      p.skipArguments g t = p.flawAt g rest flaw ∧ rest <:+ t ∧ ∀ behind, flaw.Names (rest ++ behind) := by
  have htrim : Text.trimStart t <:+ t := List.dropWhile_suffix _
  rw [TypeName.skipArguments, skipArguments, Slice.trimStart?_eq]
  simp only [taken, ok_bind]
  cases hcons : Text.trimStart t with
  | nil => exact .inl ⟨_, rfl, rfl, List.nil_suffix, .inl rfl⟩
  | cons c rest =>
    rw [hcons] at htrim
    dsimp only
    by_cases hopen : c = '<'
    · subst hopen
      rw [if_pos rfl, if_pos rfl, closingBracket, if_pos rfl, closingBracket_eq, ok_bind]
      cases hclose : TypeName.afterBrackets 0 rest with
      | none => exact .inr ⟨_, _, rfl, rfl, htrim, fun _ => rfl⟩
      | some behind =>
        obtain ⟨front, rfl⟩ := TypeName.exists_closing hclose
        have hwhole : '<' :: (front ++ '>' :: behind) = '<' :: front ++ ['>'] ++ behind := by simp
        have hplace : 0 + ('<').utf8Size + byteSize (front ++ '>' :: behind) - byteSize behind =
            byteSize ('<' :: front ++ ['>']) := by
          rw [byteSize_append, byteSize_append, byteSize_cons, byteSize_cons,
            Text.byteSize_singleton]
          omega
        rw [Option.map_some]
        dsimp only
        rw [hplace, hwhole, Slice.splitAt?_append]
        have hended : Ended ('<' :: (front ++ '>' :: behind)) behind :=
          ⟨⟨'<' :: front ++ ['>'], hwhole.symm⟩, .inr (.inr ⟨'<' :: front, rfl⟩)⟩
        exact .inl ⟨_, rfl, rfl, hended.of_suffix htrim⟩
    · rw [if_neg hopen, if_neg hopen]
      split
      · next hmark => exact .inl ⟨_, rfl, rfl, htrim, .inr (.inl ⟨c, rest, rfl, hmark⟩)⟩
      · exact .inr ⟨_, _, rfl, rfl, htrim, fun _ => rfl⟩

theorem skipArguments_agrees {t : Text} (h : Lies p.input f g) (ht : t <:+ f.text) :
    Agrees p.input (fun a b => a = b ∧ Ended t a) (TypeName.skipArguments f t)
      (p.skipArguments g t) := by
  rcases skipArguments_cases p f g t with
    ⟨rest, hskip, hskip', hended⟩ | ⟨flaw, rest, hskip, hskip', hrest, hnames⟩ <;> rw [hskip, hskip']
  · exact .ok ⟨rfl, hended⟩
  · exact flawAt_agrees h (hrest.trans ht) fun behind _ => hnames behind

/-- A parameter that was cut out lies in the input as the fragment does. -/
theorem between_agrees {start rest : Text} (h : Lies p.input f g) (hstart : start <:+ f.text)
    (hne : start ≠ []) (hrest : Ended start rest) :
    Agrees p.input (Lies p.input) (.ok (f.between start rest)) (between g start rest) := by
  obtain ⟨before, behind, hinput, hposition, hoffset, hapart⟩ := h.rest hstart
  have hplace : f.offset + (f.text.length - start.length) = before.length :=
    Nat.succ.inj hposition
  obtain ⟨part, rfl⟩ := hrest.1
  rw [Fragment.between, between, Slice.consumed?_eq hrest.1, Scanner.consumed_append, hoffset, hplace]
  refine .ok ⟨before, rest ++ behind, by rw [hinput, List.append_assoc], rfl, rfl, ?_⟩
  rcases hrest.2 with rfl | ⟨c, more, rfl, hmark⟩ | ⟨front, hfront⟩
  · rw [List.append_nil] at hapart hne
    exact hapart hne
  · refine .inr fun d hd => ?_
    cases hd
    rcases hmark with rfl | rfl <;> rfl
  · have hwhole : part ++ rest = front ++ ['>'] ++ rest := by
      rw [hfront, List.append_assoc, List.singleton_append]
    exact .inl (by rw [List.append_cancel_right hwhole, List.getLast?_concat])

/-- Parameters that were cut out, and the text behind them. -/
def CutOf (input t : Text) (a : List Fragment × Text) (b : List ByteFragment × Text) : Prop :=
  List.Forall₂ (Lies input) a.1 b.1 ∧ a.2 = b.2 ∧ a.2 <:+ t

theorem parametersFrom_agrees {t : Text} (h : Lies p.input f g) (ht : t <:+ f.text) :
    Agrees p.input (CutOf p.input t) (TypeName.parametersFrom f t) (p.parametersFrom g t) := by
  induction hn : t.length using Nat.strongRecOn generalizing t with
  | _ n ih =>
  have hsuffix := skipSeparator_suffix t
  rw [parametersFrom, skipSeparator_eq, ok_bind]
  cases hnext : TypeName.skipSeparator t with
  | nil =>
    rw [TypeName.parametersFrom_nil f hnext]
    exact flawBehind_agrees h fun _ => trivial
  | cons c next =>
    rw [hnext] at hsuffix
    dsimp only
    by_cases hc : c = '>'
    · subst hc
      rw [if_pos rfl, TypeName.parametersFrom_close f hnext]
      exact .ok ⟨.nil, rfl, (List.suffix_cons _ _).trans hsuffix⟩
    · rw [if_neg hc, TypeName.parametersFrom_step f hnext hc]
      refine (skipHead_agrees h (hsuffix.trans ht)).bind ?_
      rintro after _ hhead ⟨rfl, hafter⟩
      refine (skipArguments_agrees h (hafter.trans (hsuffix.trans ht))).bind ?_
      rintro rest _ hargs ⟨rfl, hended⟩
      have hlt : rest.length < t.length :=
        TypeName.length_parameter_lt (by simp [hnext]) (by simp [hnext, hc]) (by rw [hnext]; exact hhead)
          hargs
      have hrest : rest <:+ t := hended.1.trans (hafter.trans hsuffix)
      have hpart := between_agrees h (hsuffix.trans ht) (List.cons_ne_nil c next)
        (hended.of_suffix hafter)
      have hmore := ih rest.length (hn ▸ hlt) (hrest.trans ht) rfl
      generalize between g (c :: next) rest = y at hpart
      cases hpart with
      | ok hpart =>
        rw [ok_bind, if_pos hlt]
        refine hmore.bind ?_
        rintro ⟨fs, behind⟩ ⟨gs, _⟩ _ ⟨hlies, rfl, hbehind⟩
        exact .ok ⟨.cons hpart hlies, rfl, hbehind.trans hrest⟩

theorem parameters_agrees {t : Text} (h : Lies p.input f g) (ht : t <:+ f.text) :
    Agrees p.input (CutOf p.input t) (TypeName.parameters f t) (p.parameters g t) := by
  have hsuffix := skipSeparator_suffix t
  rw [TypeName.parameters, parameters, skipSeparator_eq, ok_bind]
  cases hnext : TypeName.skipSeparator t with
  | nil => exact .ok ⟨.nil, rfl, List.nil_suffix⟩
  | cons c rest =>
    rw [hnext] at hsuffix
    dsimp only
    split
    · have hrest : rest <:+ t := (List.suffix_cons _ _).trans hsuffix
      exact (parametersFrom_agrees h (hrest.trans ht)).mono fun _ _ hcut =>
        ⟨hcut.1, hcut.2.1, hcut.2.2.trans hrest⟩
    · exact flawAt_agrees h (hsuffix.trans ht) fun _ _ => rfl

/-! ## Numbers of parameters -/

/-- A name that ends with a fragment does not go on behind it. -/
theorem takeWhile_apart {t behind : Text} (h : Apart t behind) :
    (t ++ behind).takeWhile Identifier.isNameChar = t.takeWhile Identifier.isNameChar := by
  by_cases hall : ∀ c ∈ t, Identifier.isNameChar c = true
  · have hbehind : behind.takeWhile Identifier.isNameChar = [] := by
      rcases h with hlast | hfirst
      · exact absurd (hall _ (List.mem_of_getLast? hlast)) (by decide)
      · cases behind with
        | nil => rfl
        | cons c behind => exact List.takeWhile_cons_of_neg (by simp [hfirst c rfl])
    rw [List.takeWhile_append_of_pos hall, hbehind, List.append_nil, List.takeWhile_eq_self_iff.2 hall]
  · have hshort : (t.takeWhile Identifier.isNameChar).length ≠ t.length := fun heq => hall
      (List.takeWhile_eq_self_iff.1 ((List.takeWhile_prefix _).eq_of_length heq))
    rw [List.takeWhile_append, if_neg hshort]

section Counts

variable {keyword : TypeKeyword} {start t : Text}

theorem parameterCount_agrees {α β : Type} {R : α → β → Prop} (h : Lies p.input f g)
    (hstart : start <:+ f.text)
    (hkeyword : TypeName.Keyword keyword (start.takeWhile Identifier.isNameChar)) {expected got : Nat}
    (hcount : got ≠ expected) :
    Agrees p.input R (.error ⟨f.position start, .parameterCount keyword expected got⟩)
      (p.flawAt g start (.parameterCount keyword expected got)) := by
  have hne : start ≠ [] := by
    rintro rfl
    exact hkeyword.ne_nil rfl
  refine flawAt_agrees h hstart fun behind hapart => ⟨hcount, ?_⟩
  rwa [takeWhile_apart (hapart hne)]

theorem oneParameter_agrees (h : Lies p.input f g) (hstart : start <:+ f.text) (ht : t <:+ f.text)
    (hkeyword : TypeName.Keyword keyword (start.takeWhile Identifier.isNameChar)) :
    Agrees p.input (fun a b => Lies p.input a.1 b.1 ∧ a.2 = b.2 ∧ a.2 <:+ t)
      (TypeName.oneParameter f keyword start t) (p.oneParameter g keyword start t) := by
  rw [TypeName.oneParameter, oneParameter]
  refine (parameters_agrees h ht).bind ?_
  rintro ⟨fs, rest⟩ ⟨gs, _⟩ - ⟨hlies, rfl, hrest⟩
  dsimp only at hlies
  have hlength := hlies.length_eq
  rcases hlies with _ | ⟨hfirst, _ | ⟨hsecond, hmore⟩⟩
  · exact parameterCount_agrees h hstart hkeyword (by simp)
  · exact .ok ⟨hfirst, rfl, hrest⟩
  · dsimp only
    rw [hlength]
    exact parameterCount_agrees h hstart hkeyword (by simp)

theorem twoParameters_agrees (h : Lies p.input f g) (hstart : start <:+ f.text) (ht : t <:+ f.text)
    (hkeyword : TypeName.Keyword keyword (start.takeWhile Identifier.isNameChar)) :
    Agrees p.input (fun a b => Lies p.input a.1 b.1 ∧ Lies p.input a.2.1 b.2.1 ∧ a.2.2 = b.2.2 ∧
        a.2.2 <:+ t)
      (TypeName.twoParameters f keyword start t) (p.twoParameters g keyword start t) := by
  rw [TypeName.twoParameters, twoParameters]
  refine (parameters_agrees h ht).bind ?_
  rintro ⟨fs, rest⟩ ⟨gs, _⟩ - ⟨hlies, rfl, hrest⟩
  dsimp only at hlies
  have hlength := hlies.length_eq
  rcases hlies with _ | ⟨hfirst, _ | ⟨hsecond, _ | ⟨hthird, hmore⟩⟩⟩
  · exact parameterCount_agrees h hstart hkeyword (by simp)
  · exact parameterCount_agrees h hstart hkeyword (by simp)
  · exact .ok ⟨hfirst, hsecond, rfl, hrest⟩
  · dsimp only
    rw [hlength]
    exact parameterCount_agrees h hstart hkeyword (by simp)

end Counts

end BytePass

end Cql
