import Cql.Proofs.Names
import Cql.Proofs.Sequences
import Cql.Proofs.TypeMeaning

/-!
Texts of type expressions: keywords in any case, parameters separated by one comma each, blanks around
names, brackets and commas. The reader takes every such text for its expression, or tells that the
parameters are nested too deep.
-/

namespace Cql.TypeName

open Text (Blank)

/-- A keyword in any case. -/
def Keyword (keyword : TypeKeyword) (word : Text) : Prop :=
  Text.sameWord keyword.name.toList word = true

mutual

/-- A text of a type expression without blanks around it. -/
inductive Written : TypeName → Text → Prop
  | native {type : NativeType} {word : Text} (hword : Keyword (.native type) word) :
    Written (.native type) word
  | empty {word : Text} (hword : Keyword .empty word) : Written .empty word
  | list {e : TypeName} {word args : Text} (hword : Keyword .list word) (hargs : Arguments [e] args) :
    Written (.list e) (word ++ args)
  | set {e : TypeName} {word args : Text} (hword : Keyword .set word) (hargs : Arguments [e] args) :
    Written (.set e) (word ++ args)
  | map {k v : TypeName} {word args : Text} (hword : Keyword .map word)
    (hargs : Arguments [k, v] args) : Written (.map k v) (word ++ args)
  | frozen {e : TypeName} {word args : Text} (hword : Keyword .frozen word)
    (hargs : Arguments [e] args) : Written (.frozen e) (word ++ args)
  | tuple {es : List TypeName} {word args : Text} (hword : Keyword .tuple word)
    (hargs : Arguments es args) : Written (.tuple es) (word ++ args)
  /-- Without brackets a tuple has no elements. -/
  | bareTuple {word : Text} (hword : Keyword .tuple word) : Written (.tuple []) word
  | bareName {name : Text} (hne : name ≠ []) (hchars : ∀ c ∈ name, Identifier.isNameChar c = true)
    (hkeyword : ∀ keyword, ¬ Keyword keyword name) : Written (.user (String.ofList name)) name
  | quotedName {name : Text} (hne : name ≠ []) (hopen : '<' ∉ name) (hclose : '>' ∉ name) :
    Written (.user (String.ofList name)) (Identifier.quoted name)

/-- A text with blanks around it. -/
inductive Padded : TypeName → Text → Prop
  | mk {e : TypeName} {before t after : Text} (hbefore : Blank before) (ht : Written e t)
    (hafter : Blank after) : Padded e (before ++ t ++ after)

/-- Parameters in brackets, behind any blanks. -/
inductive Arguments : List TypeName → Text → Prop
  | none {gap inner : Text} (hgap : Blank gap) (hinner : Blank inner) :
    Arguments [] (gap ++ '<' :: inner ++ ['>'])
  | some {es : List TypeName} {gap t : Text} (hgap : Blank gap) (ht : Parameters es t) :
    Arguments es (gap ++ '<' :: t ++ ['>'])

/-- At least one parameter, with a comma between neighbours. -/
inductive Parameters : List TypeName → Text → Prop
  | last {e : TypeName} {t : Text} (ht : Padded e t) : Parameters [e] t
  | cons {e : TypeName} {es : List TypeName} {s t : Text} (hs : Padded e s)
    (ht : Parameters es t) : Parameters (e :: es) (s ++ ',' :: t)

end

/-! ## Keywords -/

theorem Keyword.lower_eq {keyword : TypeKeyword} {word : Text} (h : Keyword keyword word) :
    Text.lower word = Text.lower keyword.name.toList := (beq_iff_eq.1 h).symm

/-- Only the lower case form of a word matters. -/
theorem ofName?_congr {s t : Text} (h : Text.lower s = Text.lower t) :
    TypeKeyword.ofName? s = TypeKeyword.ofName? t := by
  simp only [TypeKeyword.ofName?, NativeType.ofName?, Text.sameWord, h]

theorem ofName?_name (keyword : TypeKeyword) :
    TypeKeyword.ofName? keyword.name.toList = some keyword := by
  cases keyword with
  | native type => cases type <;> rfl
  | _ => rfl

theorem Keyword.ofName?_eq {keyword : TypeKeyword} {word : Text} (h : Keyword keyword word) :
    TypeKeyword.ofName? word = some keyword := by
  rw [ofName?_congr h.lower_eq, ofName?_name]

theorem ofName?_eq_none {word : Text} (h : ∀ keyword, ¬ Keyword keyword word) :
    TypeKeyword.ofName? word = none := by
  unfold TypeKeyword.ofName?
  cases hnative : NativeType.ofName? word with
  | some type => exact absurd (List.find?_some hnative) (h (.native type))
  | none =>
    dsimp only
    rw [List.find?_eq_none]
    exact fun keyword _ => h keyword

theorem keyword_of_ofName? {keyword : TypeKeyword} {word : Text}
    (h : TypeKeyword.ofName? word = some keyword) : Keyword keyword word := by
  unfold TypeKeyword.ofName? at h
  cases hnative : NativeType.ofName? word with
  | some type =>
    rw [hnative] at h
    cases h
    have hfound := List.find?_some hnative
    exact hfound
  | none =>
    rw [hnative] at h
    have hfound := List.find?_some h
    exact hfound

theorem isNameChar_of_toLower {c : Char} (h : Identifier.isNameChar c.toLower = true) :
    Identifier.isNameChar c = true := by
  rcases Identifier.toLower_cases c with heq | ⟨hupper, _⟩
  · rwa [heq] at h
  · have halpha : c.isAlphanum = true := Identifier.isAlphanum_iff.2 (.inl hupper)
    simp [Identifier.isNameChar, halpha]

theorem Keyword.ne_nil {keyword : TypeKeyword} {word : Text} (h : Keyword keyword word) :
    word ≠ [] := by
  rintro rfl
  have hlower := h.lower_eq
  cases keyword with
  | native type => cases type <;> cases hlower
  | _ => cases hlower

theorem Keyword.isNameChar {keyword : TypeKeyword} {word : Text} (h : Keyword keyword word) :
    ∀ c ∈ word, Identifier.isNameChar c = true := by
  have hname : (Text.lower keyword.name.toList).all Identifier.isNameChar = true := by
    cases keyword with
    | native type => cases type <;> decide
    | _ => decide
  intro c hc
  have hlower : c.toLower ∈ Text.lower word := List.mem_map_of_mem hc
  rw [h.lower_eq] at hlower
  exact isNameChar_of_toLower (List.all_eq_true.1 hname _ hlower)

/-! ## Names and brackets -/

/-- What can follow a name: nothing that could belong to it. -/
def EndsName (rest : Text) : Prop :=
  ∀ c, rest.head? = some c → Identifier.isNameChar c = false ∧ c ≠ '"'

theorem EndsName.nil : EndsName [] := fun _ h => nomatch h

theorem EndsName.cons {c : Char} (hc : Identifier.isNameChar c = false) (hquote : c ≠ '"')
    (rest : Text) : EndsName (c :: rest) := by
  intro d hd
  cases hd
  exact ⟨hc, hquote⟩

theorem EndsName.blank_append {gap rest : Text} (hgap : Blank gap) (hrest : EndsName rest) :
    EndsName (gap ++ rest) := by
  cases gap with
  | nil => exact hrest
  | cons c gap =>
    have hc := hgap.of_cons.1
    refine .cons ?_ ?_ _
    · cases hname : Identifier.isNameChar c with
      | false => rfl
      | true => rw [Identifier.isBlank_of_isNameChar hname] at hc; cases hc
    · rintro rfl
      exact absurd hc (by decide)

/-- The text of a name, bare or quoted. -/
inductive IsHead : Head → Text → Prop
  | bare {word : Text} (hne : word ≠ []) (hchars : ∀ c ∈ word, Identifier.isNameChar c = true) :
    IsHead (.bare word) word
  | quoted {name : Text} (hne : name ≠ []) : IsHead (.quoted name) (Identifier.quoted name)

/-- A name starts with a character that is neither a blank nor a mark. -/
theorem IsHead.first {head : Head} {word : Text} (h : IsHead head word) :
    ∃ c r, word = c :: r ∧ Text.isBlank c = false ∧ c ≠ ',' ∧ c ≠ '<' ∧ c ≠ '>' := by
  cases h with
  | bare hne hchars =>
    cases word with
    | nil => exact absurd rfl hne
    | cons c r =>
      have hc := hchars c List.mem_cons_self
      refine ⟨c, r, rfl, Identifier.isBlank_of_isNameChar hc, ?_, ?_, ?_⟩
      all_goals
        rintro rfl
        exact absurd hc (by decide)
  | quoted hne => exact ⟨'"', _, rfl, by decide, by decide, by decide, by decide⟩

/-- Whether a name that was read cannot go on with the character. -/
def Head.ends : Head → Char → Bool
  | .bare _, c => !Identifier.isNameChar c
  | .quoted _, c => c != '"'

/-- What stands behind the name does not belong to it. -/
def Head.EndsAt (head : Head) (rest : Text) : Prop := ∀ c, rest.head? = some c → head.ends c = true

theorem EndsName.endsAt {rest : Text} (h : EndsName rest) (head : Head) : head.EndsAt rest := by
  intro c hc
  obtain ⟨hname, hquote⟩ := h c hc
  cases head with
  | bare name => simp [Head.ends, hname]
  | quoted name => simp [Head.ends, hquote]

theorem IsHead.readHead_of_ends {head : Head} {word : Text} (h : IsHead head word) (f : Fragment)
    {rest : Text} (hrest : head.EndsAt rest) : readHead f (word ++ rest) = .ok (head, rest) := by
  cases h with
  | bare hne hchars =>
    have hquote : (word ++ rest).head? ≠ some '"' := by
      cases word with
      | nil => exact absurd rfl hne
      | cons c r =>
        rintro h
        cases h
        exact absurd (hchars '"' List.mem_cons_self) (by decide)
    have hends : ∀ c, rest.head? = some c → Identifier.isNameChar c = false := fun c hc => by
      simpa [Head.ends] using hrest c hc
    rw [readHead, if_neg hquote, Text.spanWhile_append hchars hends]
    simp [hne]
  | @quoted name hne =>
    have hquote : (Identifier.quoted name ++ rest).head? = some '"' := rfl
    have hinner : ((Identifier.quoted name).drop 1).dropLast = Identifier.double name := by
      simp [Identifier.quoted]
    have hends : rest.head? ≠ some '"' := fun h => absurd (hrest _ h) (by simp [Head.ends])
    rw [readHead, if_pos hquote, Scanner.skipIdentifier_quoted name hends]
    dsimp only
    rw [hinner, Identifier.undouble_double]
    simp [hne]

theorem IsHead.readHead_eq {head : Head} {word : Text} (h : IsHead head word) (f : Fragment)
    {rest : Text} (hrest : EndsName rest) : readHead f (word ++ rest) = .ok (head, rest) :=
  h.readHead_of_ends f (hrest.endsAt head)

theorem Keyword.isHead {keyword : TypeKeyword} {word : Text} (h : Keyword keyword word) :
    IsHead (.bare word) word := .bare h.ne_nil h.isNameChar

theorem afterBrackets_open (depth : Nat) (rest : Text) :
    afterBrackets depth ('<' :: rest) = afterBrackets (depth + 1) rest := by
  rw [afterBrackets.eq_def]
  rfl

theorem afterBrackets_close (depth : Nat) (rest : Text) :
    afterBrackets (depth + 1) ('>' :: rest) = afterBrackets depth rest := by
  rw [afterBrackets.eq_def]
  rfl

theorem afterBrackets_last (rest : Text) : afterBrackets 0 ('>' :: rest) = some rest := by
  rw [afterBrackets.eq_def]
  rfl

theorem afterBrackets_other {c : Char} (hopen : c ≠ '<') (hclose : c ≠ '>') (depth : Nat)
    (rest : Text) : afterBrackets depth (c :: rest) = afterBrackets depth rest := by
  rw [afterBrackets.eq_def]
  simp [hopen, hclose]

/-- A text whose brackets close each other. -/
def Balanced (t : Text) : Prop := ∀ depth rest, afterBrackets depth (t ++ rest) = afterBrackets depth rest

theorem Balanced.append {s t : Text} (hs : Balanced s) (ht : Balanced t) : Balanced (s ++ t) := by
  intro depth rest
  rw [List.append_assoc, hs, ht]

theorem Balanced.of_not_mem {t : Text} (hopen : '<' ∉ t) (hclose : '>' ∉ t) : Balanced t := by
  intro depth rest
  induction t with
  | nil => rfl
  | cons c t ih =>
    rw [List.mem_cons, not_or] at hopen hclose
    rw [List.cons_append, afterBrackets_other (Ne.symm hopen.1) (Ne.symm hclose.1)]
    exact ih hopen.2 hclose.2

theorem Balanced.brackets {t : Text} (ht : Balanced t) : Balanced ('<' :: t ++ ['>']) := by
  intro depth rest
  rw [List.append_assoc, List.cons_append, afterBrackets_open, ht, List.singleton_append,
    afterBrackets_close]

theorem not_mem_of_blank {t : Text} (h : Blank t) : '<' ∉ t ∧ '>' ∉ t :=
  ⟨fun hmem => absurd (h _ hmem) (by decide), fun hmem => absurd (h _ hmem) (by decide)⟩

theorem Balanced.blank {t : Text} (h : Blank t) : Balanced t :=
  .of_not_mem (not_mem_of_blank h).1 (not_mem_of_blank h).2

theorem Balanced.word {word : Text} (h : ∀ c ∈ word, Identifier.isNameChar c = true) :
    Balanced word :=
  .of_not_mem (fun hm => absurd (h _ hm) (by decide)) (fun hm => absurd (h _ hm) (by decide))

theorem mem_of_mem_double {c : Char} {t : Text} (h : c ∈ Identifier.double t) : c ∈ t := by
  obtain ⟨d, hd, hc⟩ := List.mem_flatMap.1 h
  split at hc
  · rcases List.mem_cons.1 hc with rfl | hc
    · exact hd
    · exact List.mem_singleton.1 hc ▸ hd
  · exact List.mem_singleton.1 hc ▸ hd

theorem Balanced.quoted {name : Text} (hopen : '<' ∉ name) (hclose : '>' ∉ name) :
    Balanced (Identifier.quoted name) := by
  apply Balanced.of_not_mem
  · intro h
    simp only [Identifier.quoted, List.cons_append, List.mem_cons, List.mem_append,
      List.not_mem_nil, or_false] at h
    rcases h with h | h | h
    · exact absurd h (by decide)
    · exact hopen (mem_of_mem_double h)
    · exact absurd h (by decide)
  · intro h
    simp only [Identifier.quoted, List.cons_append, List.mem_cons, List.mem_append,
      List.not_mem_nil, or_false] at h
    rcases h with h | h | h
    · exact absurd h (by decide)
    · exact hclose (mem_of_mem_double h)
    · exact absurd h (by decide)

mutual

theorem Written.balanced : {e : TypeName} → {t : Text} → Written e t → Balanced t
  | _, _, .native hword => .word hword.isNameChar
  | _, _, .empty hword => .word hword.isNameChar
  | _, _, .list hword hargs => (Balanced.word hword.isNameChar).append hargs.balanced
  | _, _, .set hword hargs => (Balanced.word hword.isNameChar).append hargs.balanced
  | _, _, .map hword hargs => (Balanced.word hword.isNameChar).append hargs.balanced
  | _, _, .frozen hword hargs => (Balanced.word hword.isNameChar).append hargs.balanced
  | _, _, .tuple hword hargs => (Balanced.word hword.isNameChar).append hargs.balanced
  | _, _, .bareTuple hword => .word hword.isNameChar
  | _, _, .bareName _ hchars _ => .word hchars
  | _, _, .quotedName _ hopen hclose => .quoted hopen hclose

theorem Padded.balanced : {e : TypeName} → {t : Text} → Padded e t → Balanced t
  | _, _, .mk hbefore ht hafter =>
    ((Balanced.blank hbefore).append ht.balanced).append (.blank hafter)

theorem Arguments.balanced : {es : List TypeName} → {t : Text} → Arguments es t → Balanced t
  | _, _, .none hgap hinner => by
    rw [List.append_assoc]
    exact (Balanced.blank hgap).append (Balanced.blank hinner).brackets
  | _, _, .some hgap ht => by
    rw [List.append_assoc]
    exact (Balanced.blank hgap).append ht.balanced.brackets

theorem Parameters.balanced : {es : List TypeName} → {t : Text} → Parameters es t → Balanced t
  | _, _, .last ht => ht.balanced
  | _, _, .cons hs ht => by
    have hcomma : Balanced [','] := .of_not_mem (by decide) (by decide)
    exact hs.balanced.append (hcomma.append ht.balanced)

end

/-! ## Cutting out parameters -/

/-- What can stand before a parameter: blanks, or the comma behind the one before. -/
inductive Separator : Text → Prop
  | blank {gap : Text} (hgap : Blank gap) : Separator gap
  | comma {gap : Text} (hgap : Blank gap) : Separator (gap ++ [','])

theorem skipSeparator_append {sep before : Text} (hsep : Separator sep) (hbefore : Blank before)
    {c : Char} (hc : Text.isBlank c = false) (hcomma : c ≠ ',') (rest : Text) :
    skipSeparator (sep ++ (before ++ c :: rest)) = c :: rest := by
  have hstart : Text.trimStart (before ++ c :: rest) = c :: rest := by
    rw [Text.trimStart_append hbefore, Text.trimStart_cons hc]
  unfold skipSeparator
  cases hsep with
  | blank hgap =>
    rw [Text.trimStart_append hgap, hstart]
    split
    · rename_i h
      exact absurd (List.cons.inj h).1 hcomma
    · rfl
  | comma hgap =>
    rw [List.append_assoc, Text.trimStart_append hgap, List.singleton_append,
      Text.trimStart_cons (by decide)]
    exact hstart

theorem skipHead_append {head : Head} {word : Text} (h : IsHead head word) (f : Fragment)
    {rest : Text} (hrest : EndsName rest) : skipHead f (word ++ rest) = .ok rest := by
  rw [skipHead, h.readHead_eq f hrest]

/-- A mark at which a parameter without arguments ends. -/
def StartsMark (rest : Text) : Prop := ∃ c r, rest = c :: r ∧ (c = '>' ∨ c = ',')

theorem StartsMark.endsName {rest : Text} (h : StartsMark rest) : EndsName rest := by
  obtain ⟨c, r, rfl, rfl | rfl⟩ := h
  · exact .cons (by decide) (by decide) r
  · exact .cons (by decide) (by decide) r

theorem skipArguments_mark (f : Fragment) {gap rest : Text} (hgap : Blank gap)
    (hrest : StartsMark rest) : skipArguments f (gap ++ rest) = .ok rest := by
  obtain ⟨c, r, rfl, hc⟩ := hrest
  have hblank : Text.isBlank c = false := by rcases hc with rfl | rfl <;> decide
  rw [skipArguments, Text.trimStart_append hgap, Text.trimStart_cons hblank]
  dsimp only
  rw [if_neg (by rcases hc with rfl | rfl <;> decide), if_pos hc]

theorem skipArguments_brackets (f : Fragment) {gap inner : Text} (hgap : Blank gap)
    (hinner : Balanced inner) (rest : Text) :
    skipArguments f (gap ++ '<' :: inner ++ ['>'] ++ rest) = .ok rest := by
  have hclose : afterBrackets 0 (inner ++ '>' :: rest) = some rest := by
    rw [hinner, afterBrackets_last]
  simp only [List.append_assoc, List.cons_append, List.nil_append]
  rw [skipArguments, Text.trimStart_append hgap, Text.trimStart_cons (by decide)]
  dsimp only
  rw [if_pos rfl, hclose]

theorem Arguments.shape {es : List TypeName} {args : Text} (h : Arguments es args) :
    ∃ gap inner, Blank gap ∧ Balanced inner ∧ args = gap ++ '<' :: inner ++ ['>'] := by
  cases h with
  | none hgap hinner => exact ⟨_, _, hgap, .blank hinner, rfl⟩
  | some hgap ht => exact ⟨_, _, hgap, ht.balanced, rfl⟩

theorem Arguments.endsName {es : List TypeName} {args : Text} (h : Arguments es args) (rest : Text) :
    EndsName (args ++ rest) := by
  obtain ⟨gap, inner, hgap, -, rfl⟩ := h.shape
  simp only [List.append_assoc]
  exact .blank_append hgap (.cons (by decide) (by decide) _)

/-- A name, and arguments behind it if there are any. -/
theorem Written.parts {e : TypeName} {t : Text} (h : Written e t) :
    ∃ head word args, IsHead head word ∧ t = word ++ args ∧
      (args = [] ∨ ∃ gap inner, Blank gap ∧ Balanced inner ∧ args = gap ++ '<' :: inner ++ ['>']) := by
  cases h with
  | native hword => exact ⟨_, _, [], hword.isHead, by simp, .inl rfl⟩
  | empty hword => exact ⟨_, _, [], hword.isHead, by simp, .inl rfl⟩
  | bareTuple hword => exact ⟨_, _, [], hword.isHead, by simp, .inl rfl⟩
  | bareName hne hchars _ => exact ⟨_, _, [], .bare hne hchars, by simp, .inl rfl⟩
  | quotedName hne _ _ => exact ⟨_, _, [], .quoted hne, by simp, .inl rfl⟩
  | list hword hargs => exact ⟨_, _, _, hword.isHead, rfl, .inr hargs.shape⟩
  | set hword hargs => exact ⟨_, _, _, hword.isHead, rfl, .inr hargs.shape⟩
  | map hword hargs => exact ⟨_, _, _, hword.isHead, rfl, .inr hargs.shape⟩
  | frozen hword hargs => exact ⟨_, _, _, hword.isHead, rfl, .inr hargs.shape⟩
  | tuple hword hargs => exact ⟨_, _, _, hword.isHead, rfl, .inr hargs.shape⟩

theorem parametersFrom_close (f : Fragment) {t next : Text} (h : skipSeparator t = '>' :: next) :
    parametersFrom f t = .ok ([], next) := by
  rw [parametersFrom]
  split
  · rename_i hnil
    rw [h] at hnil
    cases hnil
  · rename_i c rest hcons
    rw [h] at hcons
    cases hcons
    rfl

theorem parametersFrom_nil (f : Fragment) {t : Text} (h : skipSeparator t = []) :
    parametersFrom f t = .error ⟨f.endPosition, .endOfInput⟩ := by
  rw [parametersFrom]
  split
  · rfl
  · rename_i hcons
    rw [h] at hcons
    cases hcons

/-- One parameter after the other. -/
theorem parametersFrom_step (f : Fragment) {t next : Text} {c : Char}
    (hnext : skipSeparator t = c :: next) (hc : c ≠ '>') :
    parametersFrom f t = (do
      let after ← skipHead f (c :: next)
      let rest ← skipArguments f after
      let (parameters, behind) ← parametersFrom f rest
      .ok (f.between (c :: next) rest :: parameters, behind)) := by
  rw [parametersFrom]
  split
  · rename_i hnil
    rw [hnext] at hnil
    cases hnil
  · rename_i d tail hcons
    rw [hnext] at hcons
    cases hcons
    rw [dif_neg hc]
    -- the outcomes stand in the proofs of termination as well, so that they cannot be rewritten there
    split
    · rename_i hhead
      exact (congrArg (· >>= _) hhead).symm
    · rename_i hhead
      refine Eq.trans ?_ (congrArg (· >>= _) hhead).symm
      rw [ok_bind]
      split
      · rename_i hargs
        rw [hargs]
        rfl
      · rename_i hargs
        refine Eq.trans ?_ (congrArg (· >>= _) hargs).symm
        rfl

theorem parametersFrom_cons (f : Fragment) {t next after rest : Text} {c : Char}
    (hnext : skipSeparator t = c :: next) (hc : c ≠ '>') (hhead : skipHead f (c :: next) = .ok after)
    (hargs : skipArguments f after = .ok rest) :
    parametersFrom f t = parametersFrom f rest >>= fun (parameters, behind) =>
      .ok (f.between (c :: next) rest :: parameters, behind) := by
  rw [parametersFrom_step f hnext hc, hhead, ok_bind, hargs, ok_bind]

/-- A name is cut out as one parameter, with all that is passed over as its arguments. -/
theorem parametersFrom_part (f : Fragment) {head : Head} {sep before word args rest : Text}
    (hsep : Separator sep) (hbefore : Blank before) (hword : IsHead head word)
    (hhead : skipHead f (word ++ (args ++ rest)) = .ok (args ++ rest))
    (hargs : skipArguments f (args ++ rest) = .ok rest) :
    ∃ p : Fragment, p.text = word ++ args ∧
      parametersFrom f (sep ++ (before ++ (word ++ (args ++ rest)))) = parametersFrom f rest >>=
        fun (parameters, behind) => .ok (p :: parameters, behind) := by
  obtain ⟨c, more, rfl, hblank, hcomma, -, hclose⟩ := hword.first
  have hnext : skipSeparator (sep ++ (before ++ (c :: more ++ (args ++ rest)))) =
      c :: (more ++ (args ++ rest)) := skipSeparator_append hsep hbefore hblank hcomma _
  refine ⟨f.between (c :: (more ++ (args ++ rest))) rest, ?_,
    parametersFrom_cons f hnext hclose hhead hargs⟩
  have hwhole : c :: (more ++ (args ++ rest)) = c :: more ++ args ++ rest := by simp
  rw [Fragment.between, hwhole, Scanner.consumed_append]

/-- A parameter is cut out from its first character on, with the blanks behind it or without them. -/
theorem parametersFrom_padded (f : Fragment) {e : TypeName} {sep s rest : Text} (hsep : Separator sep)
    (hs : Padded e s) (hrest : StartsMark rest) :
    ∃ (fragment : Fragment) (gap : Text), Padded e fragment.text ∧ Blank gap ∧
      parametersFrom f (sep ++ (s ++ rest)) = parametersFrom f (gap ++ rest) >>=
        fun (parameters, behind) => .ok (fragment :: parameters, behind) := by
  obtain ⟨hbefore, ht, hafter⟩ := hs
  rename_i before t after
  obtain ⟨head, word, args, hhead, rfl, hargs⟩ := ht.parts
  rcases hargs with rfl | ⟨gap, inner, hgap, hinner, rfl⟩
  · obtain ⟨p, hp, hparameters⟩ := parametersFrom_part f hsep hbefore hhead
      (skipHead_append hhead f (.blank_append hafter hrest.endsName))
      (skipArguments_mark f hafter hrest)
    refine ⟨p, [], ?_, .nil, ?_⟩
    · have hpadded : Padded e ([] ++ (word ++ []) ++ after) := .mk .nil ht hafter
      rw [hp]
      simpa using hpadded
    · simpa using hparameters
  · have hends : EndsName (gap ++ '<' :: inner ++ ['>'] ++ (after ++ rest)) := by
      simp only [List.append_assoc]
      exact .blank_append hgap (.cons (by decide) (by decide) _)
    obtain ⟨p, hp, hparameters⟩ := parametersFrom_part f hsep hbefore hhead
      (skipHead_append hhead f hends) (skipArguments_brackets f hgap hinner _)
    refine ⟨p, after, ?_, hafter, ?_⟩
    · have hpadded : Padded e ([] ++ (word ++ (gap ++ '<' :: inner ++ ['>'])) ++ []) :=
        .mk .nil ht .nil
      rw [hp]
      simpa using hpadded
    · simpa using hparameters

/-- Every parameter is cut out, and the text behind the closing bracket is left. -/
theorem parametersFrom_parameters (f : Fragment) {es : List TypeName} {sep t : Text}
    (hsep : Separator sep) (ht : Parameters es t) (behind : Text) :
    ∃ fragments, List.Forall₂ (fun e (fragment : Fragment) => Padded e fragment.text) es fragments ∧
      parametersFrom f (sep ++ (t ++ '>' :: behind)) = .ok (fragments, behind) := by
  induction es generalizing sep t with
  | nil => cases ht
  | cons e es ih =>
    cases ht with
    | last ht =>
      obtain ⟨fragment, gap, hfragment, hgap, heq⟩ :=
        parametersFrom_padded f hsep ht ⟨'>', behind, rfl, .inl rfl⟩
      have hend : parametersFrom f (gap ++ '>' :: behind) = .ok ([], behind) :=
        parametersFrom_close f (skipSeparator_append (.blank hgap) .nil (by decide) (by decide) behind)
      exact ⟨[fragment], .cons hfragment .nil, by rw [heq, hend]; rfl⟩
    | @cons _ _ s t hs ht =>
      obtain ⟨fragment, gap, hfragment, hgap, heq⟩ :=
        parametersFrom_padded f hsep hs ⟨',', t ++ '>' :: behind, rfl, .inr rfl⟩
      obtain ⟨fragments, hfragments, hmore⟩ := ih (.comma hgap) ht
      refine ⟨fragment :: fragments, .cons hfragment hfragments, ?_⟩
      rw [List.append_assoc, List.singleton_append] at hmore
      rw [List.append_assoc, List.cons_append, heq, hmore]
      rfl

/-- The parameters behind a keyword. -/
theorem parameters_arguments (f : Fragment) {es : List TypeName} {args : Text}
    (h : Arguments es args) (behind : Text) :
    ∃ fragments, List.Forall₂ (fun e (fragment : Fragment) => Padded e fragment.text) es fragments ∧
      parameters f (args ++ behind) = .ok (fragments, behind) := by
  have hopen : ∀ {gap : Text}, Blank gap → ∀ rest, parameters f (gap ++ '<' :: rest) =
      parametersFrom f rest := by
    intro gap hgap rest
    have hskip := skipSeparator_append (.blank hgap) .nil (c := '<') (by decide) (by decide) rest
    rw [List.nil_append] at hskip
    rw [parameters, hskip]
    rfl
  cases h with
  | @none gap inner hgap hinner =>
    refine ⟨[], .nil, ?_⟩
    simp only [List.append_assoc, List.cons_append, List.nil_append]
    rw [hopen hgap]
    exact parametersFrom_close f (skipSeparator_append (.blank hinner) .nil (by decide) (by decide) _)
  | @some _ gap t hgap ht =>
    obtain ⟨fragments, hfragments, heq⟩ := parametersFrom_parameters f (.blank .nil) ht behind
    refine ⟨fragments, hfragments, ?_⟩
    simp only [List.append_assoc, List.cons_append, List.nil_append]
    rw [hopen hgap]
    exact heq

/-! ## Reading one level -/

/-- The parameters of a type expression. -/
def params : TypeName → List TypeName
  | list e | set e | frozen e => [e]
  | map k v => [k, v]
  | tuple es => es
  | native _ | empty | user _ => []

/-- The type expression with other parameters. -/
def withParams : TypeName → List TypeName → TypeName
  | list _, [e] => list e
  | set _, [e] => set e
  | frozen _, [e] => frozen e
  | map _ _, [k, v] => map k v
  | tuple _, es => tuple es
  | e, _ => e

theorem withParams_params (e : TypeName) : e.withParams e.params = e := by cases e <;> rfl

/-- What stands behind a type may only be blank. -/
def finish (f : Fragment) (e : TypeName) (t : Text) : Except Stop TypeName :=
  match Text.trimStart t with
  | [] => .ok e
  | c :: rest => .error ⟨f.position (c :: rest), .unexpected c .endOfType⟩

theorem finish_blank (f : Fragment) (e : TypeName) {t : Text} (ht : Blank t) :
    finish f e t = .ok e := by
  rw [finish, Text.trimStart_blank ht]

variable (parameter : Fragment → Except Stop TypeName)

theorem trimStart_head {before word : Text} {head : Head} (hbefore : Blank before)
    (hhead : IsHead head word) (tail : Text) :
    Text.trimStart (before ++ (word ++ tail)) = word ++ tail := by
  obtain ⟨c, r, rfl, hc, -⟩ := hhead.first
  rw [Text.trimStart_append hbefore, List.cons_append, Text.trimStart_cons hc]

theorem readWith_keyword {f : Fragment} {keyword : TypeKeyword} {before word tail : Text}
    (hf : f.text = before ++ (word ++ tail)) (hbefore : Blank before) (hword : Keyword keyword word)
    (htail : EndsName tail) :
    readWith parameter f =
      readKeyword parameter f keyword (word ++ tail) tail >>= fun (e, t) => finish f e t := by
  rw [readWith, hf, trimStart_head hbefore hword.isHead, hword.isHead.readHead_eq f htail]
  simp only [bind, Except.bind, hword.ofName?_eq]
  rfl

theorem readWith_bareName {f : Fragment} {before name tail : Text}
    (hf : f.text = before ++ (name ++ tail)) (hbefore : Blank before) (hne : name ≠ [])
    (hchars : ∀ c ∈ name, Identifier.isNameChar c = true) (hkeyword : ∀ keyword, ¬ Keyword keyword name)
    (htail : EndsName tail) :
    readWith parameter f = finish f (.user (String.ofList name)) tail := by
  have hhead := IsHead.bare hne hchars
  rw [readWith, hf, trimStart_head hbefore hhead, hhead.readHead_eq f htail]
  simp only [bind, Except.bind, ofName?_eq_none hkeyword]
  rfl

theorem readWith_quotedName {f : Fragment} {before name tail : Text}
    (hf : f.text = before ++ (Identifier.quoted name ++ tail)) (hbefore : Blank before)
    (hne : name ≠ []) (htail : EndsName tail) :
    readWith parameter f = finish f (.user (String.ofList name)) tail := by
  have hhead := IsHead.quoted hne
  rw [readWith, hf, trimStart_head hbefore hhead, hhead.readHead_eq f htail]
  rfl

/-- What a keyword makes of its parameters is the expression with these parameters. -/
def Applies (f : Fragment) (keyword : TypeKeyword) (e : TypeName) : Prop :=
  ∀ fragments start t behind, parameters f t = .ok (fragments, behind) →
    fragments.length = e.params.length →
    readKeyword parameter f keyword start t =
      fragments.mapM parameter >>= fun es => .ok (e.withParams es, behind)

theorem applies_one {f : Fragment} {keyword : TypeKeyword} {form : TypeName}
    (hone : form.params.length = 1)
    (hkeyword : ∀ start t, readKeyword parameter f keyword start t =
      oneParameter f keyword start t >>= fun (p, behind) => parameter p >>= fun e =>
        .ok (form.withParams [e], behind)) : Applies parameter f keyword form := by
  intro fragments start t behind h hlength
  obtain ⟨p, rfl⟩ := List.length_eq_one_iff.1 (hlength.trans hone)
  simp only [hkeyword, oneParameter, h, List.mapM_cons, List.mapM_nil, bind, Except.bind]
  cases parameter p <;> rfl

theorem applies_list (f : Fragment) (e : TypeName) : Applies parameter f .list (list e) :=
  applies_one parameter rfl fun _ _ => rfl

theorem applies_set (f : Fragment) (e : TypeName) : Applies parameter f .set (set e) :=
  applies_one parameter rfl fun _ _ => rfl

theorem applies_frozen (f : Fragment) (e : TypeName) : Applies parameter f .frozen (frozen e) :=
  applies_one parameter rfl fun _ _ => rfl

theorem applies_map (f : Fragment) (k v : TypeName) : Applies parameter f .map (map k v) := by
  intro fragments start t behind h hlength
  obtain ⟨p, q, rfl⟩ := List.length_eq_two.1 hlength
  simp only [readKeyword, twoParameters, h, List.mapM_cons, List.mapM_nil, bind, Except.bind]
  cases parameter p <;> cases parameter q <;> rfl

theorem applies_tuple (f : Fragment) (es : List TypeName) :
    Applies parameter f .tuple (tuple es) := by
  intro fragments start t behind h hlength
  simp only [readKeyword, h, bind, Except.bind]
  rfl

/-- A keyword with parameters behind it. -/
theorem readWith_arguments {f : Fragment} {keyword : TypeKeyword} {e : TypeName}
    {before word args after : Text} (hf : f.text = before ++ (word ++ args) ++ after)
    (hbefore : Blank before) (hword : Keyword keyword word) (hargs : Arguments e.params args)
    (hafter : Blank after) (happlies : Applies parameter f keyword e) :
    ∃ fragments,
      List.Forall₂ (fun e (fragment : Fragment) => Padded e fragment.text) e.params fragments ∧
      readWith parameter f = fragments.mapM parameter >>= fun es => .ok (e.withParams es) := by
  obtain ⟨fragments, hfragments, hparameters⟩ := parameters_arguments f hargs after
  refine ⟨fragments, hfragments, ?_⟩
  rw [List.append_assoc, List.append_assoc] at hf
  rw [readWith_keyword parameter hf hbefore hword (hargs.endsName after),
    happlies fragments _ _ after hparameters hfragments.length_eq.symm]
  cases fragments.mapM parameter with
  | error stop => rfl
  | ok es => exact finish_blank f (e.withParams es) hafter

/-- An expression without parameters is read as its name. -/
theorem readWith_alone {f : Fragment} {e : TypeName} {after : Text} (hafter : Blank after)
    (hnone : e.params = []) (h : readWith parameter f = finish f e after) :
    ∃ fragments,
      List.Forall₂ (fun e (fragment : Fragment) => Padded e fragment.text) e.params fragments ∧
      readWith parameter f = fragments.mapM parameter >>= fun es => .ok (e.withParams es) := by
  refine ⟨[], hnone ▸ .nil, ?_⟩
  have hsame := withParams_params e
  rw [hnone] at hsame
  rw [h, finish_blank f e hafter, List.mapM_nil, pure_bind, hsame]

/-- A text of an expression is read by reading its parameters where they stand. -/
theorem readWith_padded {f : Fragment} {e : TypeName} (h : Padded e f.text) :
    ∃ fragments,
      List.Forall₂ (fun e (fragment : Fragment) => Padded e fragment.text) e.params fragments ∧
      readWith parameter f = fragments.mapM parameter >>= fun es => .ok (e.withParams es) := by
  generalize htext : f.text = text at h
  obtain ⟨hbefore, ht, hafter⟩ := h
  rename_i before t after
  have hflat : f.text = before ++ (t ++ after) := htext.trans (List.append_assoc ..)
  have hends : EndsName after := by
    have := EndsName.blank_append hafter .nil
    rwa [List.append_nil] at this
  cases ht with
  | list hword hargs =>
    exact readWith_arguments parameter htext hbefore hword hargs hafter (applies_list _ _ _)
  | set hword hargs =>
    exact readWith_arguments parameter htext hbefore hword hargs hafter (applies_set _ _ _)
  | frozen hword hargs =>
    exact readWith_arguments parameter htext hbefore hword hargs hafter (applies_frozen _ _ _)
  | map hword hargs =>
    exact readWith_arguments parameter htext hbefore hword hargs hafter (applies_map _ _ _ _)
  | tuple hword hargs =>
    exact readWith_arguments parameter htext hbefore hword hargs hafter (applies_tuple _ _ _)
  | native hword =>
    exact readWith_alone parameter hafter rfl (readWith_keyword parameter hflat hbefore hword hends)
  | empty hword =>
    exact readWith_alone parameter hafter rfl (readWith_keyword parameter hflat hbefore hword hends)
  | bareTuple hword =>
    have hnone : parameters f after = .ok ([], []) := by
      rw [parameters, show skipSeparator after = [] by
        rw [skipSeparator, Text.trimStart_blank hafter]]
    refine readWith_alone parameter .nil rfl ?_
    rw [readWith_keyword parameter hflat hbefore hword hends,
      applies_tuple parameter f [] [] _ _ _ hnone rfl]
    rfl
  | bareName hne hchars hkeyword =>
    exact readWith_alone parameter hafter rfl
      (readWith_bareName parameter hflat hbefore hne hchars hkeyword hends)
  | quotedName hne _ _ =>
    exact readWith_alone parameter hafter rfl (readWith_quotedName parameter hflat hbefore hne hends)

/-! ## Reading all levels -/

theorem mem_depthOfAll {es : List TypeName} {e : TypeName} (h : e ∈ es) :
    e.depth + 1 ≤ depthOfAll es := by
  induction es with
  | nil => cases h
  | cons d es ih =>
    rw [depthOfAll]
    rcases List.mem_cons.1 h with rfl | h
    · omega
    · have := ih h
      omega

theorem exists_depthOfAll {es : List TypeName} (h : es ≠ []) :
    ∃ e ∈ es, depthOfAll es = e.depth + 1 := by
  induction es with
  | nil => exact absurd rfl h
  | cons d es ih =>
    rw [depthOfAll]
    by_cases hes : es = []
    · subst hes
      exact ⟨d, List.mem_cons_self, by simp [depthOfAll]⟩
    · obtain ⟨e, he, heq⟩ := ih hes
      by_cases hd : e.depth ≤ d.depth
      · exact ⟨d, List.mem_cons_self, by omega⟩
      · exact ⟨e, List.mem_cons_of_mem _ he, by omega⟩

/-- An expression is one level deeper than its deepest parameter. -/
theorem depth_eq (e : TypeName) : e.depth = depthOfAll e.params := by
  cases e <;> simp [depth, depthOfAll, params]

/-- A parameter is read if it is less than `n` levels deep, and too deep otherwise. -/
def ReadsBelow (limit n : Nat) : Prop :=
  ∀ e (p : Fragment), Padded e p.text → (e.depth < n → parameter p = .ok e) ∧
    (n ≤ e.depth → ∃ stop, stop.flaw = .tooDeep limit ∧ parameter p = .error stop)

section Parameters

variable {parameter} {limit n : Nat} (hparameter : ReadsBelow parameter limit n) {es : List TypeName}
  {fragments : List Fragment}
  (hfragments : List.Forall₂ (fun e (fragment : Fragment) => Padded e fragment.text) es fragments)

include hparameter hfragments

theorem mapM_parameters (h : ∀ e ∈ es, e.depth < n) : fragments.mapM parameter = .ok es := by
  induction hfragments with
  | nil => rfl
  | cons hp _ ih =>
    obtain ⟨hfirst, hrest⟩ := List.forall_mem_cons.1 h
    rw [List.mapM_cons, (hparameter _ _ hp).1 hfirst, ih hrest]
    rfl

/-- The first parameter that is too deep ends the reading. -/
theorem mapM_parameters_tooDeep (h : ∃ e ∈ es, n ≤ e.depth) :
    ∃ stop, stop.flaw = .tooDeep limit ∧ fragments.mapM parameter = .error stop := by
  induction hfragments with
  | nil =>
    obtain ⟨e, he, -⟩ := h
    cases he
  | @cons e p es _ hp _ ih =>
    rw [List.mapM_cons]
    by_cases hdeep : n ≤ e.depth
    · obtain ⟨stop, hflaw, hstop⟩ := (hparameter _ _ hp).2 hdeep
      exact ⟨stop, hflaw, by rw [hstop]; rfl⟩
    · obtain ⟨d, hd, hdepth⟩ := h
      have hlater : d ∈ es := by
        rcases List.mem_cons.1 hd with rfl | hd
        · exact absurd hdepth hdeep
        · exact hd
      obtain ⟨stop, hflaw, hstop⟩ := ih ⟨d, hlater, hdepth⟩
      exact ⟨stop, hflaw, by rw [(hparameter _ _ hp).1 (by omega), hstop]; rfl⟩

end Parameters

/-- One level more than the parameters. -/
theorem readWith_depth {limit n : Nat} (hparameter : ReadsBelow parameter limit n) {f : Fragment}
    {e : TypeName} (h : Padded e f.text) :
    (e.depth ≤ n → readWith parameter f = .ok e) ∧
      (n < e.depth → ∃ stop, stop.flaw = .tooDeep limit ∧ readWith parameter f = .error stop) := by
  obtain ⟨fragments, hfragments, heq⟩ := readWith_padded parameter h
  rw [heq, depth_eq]
  constructor
  · intro hdepth
    have hall : ∀ d ∈ e.params, d.depth < n := fun d hd => by
      have := mem_depthOfAll hd
      omega
    rw [mapM_parameters hparameter hfragments hall]
    exact congrArg Except.ok (withParams_params e)
  · intro hdepth
    have hne : e.params ≠ [] := by
      intro hnil
      rw [hnil, depthOfAll] at hdepth
      omega
    obtain ⟨d, hd, hmax⟩ := exists_depthOfAll hne
    obtain ⟨stop, hflaw, hstop⟩ :=
      mapM_parameters_tooDeep hparameter hfragments ⟨d, hd, by omega⟩
    exact ⟨stop, hflaw, by rw [hstop]; rfl⟩

/-- With enough levels the expression is read; with too few the reader says so. -/
theorem readLevel_padded (limit levels : Nat) {f : Fragment} {e : TypeName} (h : Padded e f.text) :
    (e.depth ≤ levels → readLevel limit levels f = .ok e) ∧
      (levels < e.depth → ∃ stop, stop.flaw = .tooDeep limit ∧ readLevel limit levels f = .error stop) := by
  induction levels generalizing f e with
  | zero =>
    refine readWith_depth _ (fun e p _ => ⟨fun hdepth => absurd hdepth (Nat.not_lt_zero _), ?_⟩) h
    exact fun _ => ⟨_, rfl, rfl⟩
  | succ levels ih =>
    refine readWith_depth _ (fun e p hp => ?_) h
    obtain ⟨hread, hdeep⟩ := ih hp
    exact ⟨fun hdepth => hread (Nat.le_of_lt_succ hdepth), fun hdepth => hdeep hdepth⟩

/-- A text of an expression is read as what the expression denotes, with the user types that are not
known told in the order of their appearance; or its parameters are nested deeper than the limit, and
that is told. -/
theorem read_written (scope : TypeScope) (hstandard : scope.makeTuple = .tuple) (keyspace : String)
    (frozen : Bool) (limit : Nat) (e : TypeName) (t : Text) (h : Padded e t) :
    (e.depth ≤ limit → (read limit t).map (fun name => name.resolve scope keyspace frozen) =
      .ok ⟨e.meaning (scope.userType? keyspace) frozen, e.unknown (scope.userType? keyspace)⟩) ∧
    (limit < e.depth → ∃ position, read limit t = .error ⟨t, position, .tooDeep limit⟩) := by
  have hlevels := readLevel_padded limit limit (f := ⟨t, 0⟩) h
  constructor
  · intro hdepth
    rw [read, hlevels.1 hdepth]
    exact congrArg Except.ok (resolve_eq keyspace hstandard e frozen)
  · intro hdepth
    obtain ⟨stop, hflaw, hstop⟩ := hlevels.2 hdepth
    exact ⟨stop.position, by rw [read, hstop, ← hflaw]⟩

/-- Keywords in mixed case, a quoted name with a quote in it, and blanks at every place: two levels are
enough and one is not. -/
theorem read_written_nested :
    let e : TypeName := .map (.native .text) (.frozen (.user "a\"b"))
    let t : Text := " MAP < text ,Frozen<\"a\"\"b\"\t> >\n".toList
    Padded e t ∧ TypeScope.none.makeTuple = .tuple ∧ e.depth = 2 ∧
      (read 2 t).map (fun name => name.resolve .none "ks" true) =
        .ok ⟨.map (.native .text) (.custom "a\"b") true, ["a\"b"]⟩ ∧
      ∃ position, read 1 t = .error ⟨t, position, .tooDeep 1⟩ := by
  intro e t
  have hname : Padded (.user "a\"b") ([] ++ Identifier.quoted ['a', '"', 'b'] ++ ['\t']) :=
    .mk .nil (.quotedName (by decide) (by decide) (by decide)) (by decide)
  have hvalue : Padded (.frozen (.user "a\"b"))
      ([] ++ ("Frozen".toList ++ ([] ++ '<' :: ([] ++ Identifier.quoted ['a', '"', 'b'] ++ ['\t'])
        ++ ['>'])) ++ [' ']) :=
    .mk .nil (.frozen rfl (.some .nil (.last hname))) (by decide)
  have hkey : Padded (.native .text) ([' '] ++ "text".toList ++ [' ']) :=
    .mk (by decide) (.native rfl) (by decide)
  have hwhole : Padded e ([' '] ++ ("MAP".toList ++ ([' '] ++ '<' :: (([' '] ++ "text".toList ++ [' '])
      ++ ',' :: ([] ++ ("Frozen".toList ++ ([] ++ '<' :: ([] ++ Identifier.quoted ['a', '"', 'b']
        ++ ['\t']) ++ ['>'])) ++ [' '])) ++ ['>'])) ++ ['\n']) :=
    .mk (by decide) (.map rfl (.some (by decide) (.cons hkey (.last hvalue)))) (by decide)
  have hpadded : Padded e t := hwhole
  obtain ⟨hread, -⟩ := read_written .none rfl "ks" true 2 e t hpadded
  obtain ⟨-, hdeep⟩ := read_written .none rfl "ks" true 1 e t hpadded
  exact ⟨hpadded, rfl, rfl, hread (by decide), hdeep (by decide)⟩

end Cql.TypeName
