import Cql.Proofs.ByteFragments

/-!
How parameters are laid out. Between two brackets there are parameters and separators and nothing else,
and each parameter knows the place in bytes where it stands. The loop that cuts them out takes something
in every round, whatever it is given, so that it comes to an end without a guard.
-/

namespace Cql

open Cql.TypeName (Stop Flaw Head Separator)
open Text (Blank byteSize byteSize_cons byteSize_append)

namespace BytePass

variable {p : BytePass} {f : ByteFragment} {t : Text}

/-! ## Work that does not break down -/

/-- An answer with a property, or a stop at a flaw. -/
inductive Ends {α : Type} (R : α → Prop) : Except Halt α → Prop
  | ok {a : α} (h : R a) : Ends R (.ok a)
  | stop (stop : Stop) : Ends R (.error (.stop stop))

namespace Ends

variable {α β : Type} {R : α → Prop} {S : β → Prop}

theorem bind {x : Except Halt α} {next : α → Except Halt β} (h : Ends R x)
    (hnext : ∀ a, R a → Ends S (next a)) : Ends S (x >>= next) := by
  cases h with
  | ok h => exact hnext _ h
  | stop stop => exact .stop stop

theorem mono {R' : α → Prop} {x : Except Halt α} (h : Ends R x) (hR : ∀ a, R a → R' a) :
    Ends R' x := by
  cases h with
  | ok h => exact .ok (hR _ h)
  | stop stop => exact .stop stop

theorem not_broken {x : Except Halt α} (h : Ends R x) (breakdown : Breakdown) :
    x ≠ .error (.broken breakdown) := by
  rintro rfl
  cases h

theorem of_ok {x : Except Halt α} {a : α} (h : Ends R x) (hok : x = .ok a) : R a := by
  subst hok
  cases h with
  | ok h => exact h

end Ends

/-- A rest of a fragment starts at a place. -/
theorem byteSize_le_endOffset (ht : t <:+ f.text) : byteSize t ≤ f.endOffset := by
  obtain ⟨front, hfront⟩ := ht
  rw [ByteFragment.endOffset, ← hfront, byteSize_append]
  omega

theorem offsetOf_eq (ht : t <:+ f.text) : offsetOf f t = .ok (f.endOffset - byteSize t) :=
  if_pos (byteSize_le_endOffset ht)

section Flaws

variable {α : Type} {R : α → Prop} {flaw : Flaw}

theorem flawAt_ends (ht : t <:+ f.text) : Ends R (p.flawAt f t flaw) := by
  rw [flawAt, offsetOf_eq ht, ok_bind]
  exact .stop _

theorem flawBehind_ends : Ends R (p.flawBehind f flaw) := .stop _

end Flaws

/-- The fragment of characters is of no importance: only what is told of a flaw depends on it. -/
theorem skipHead_ends (g : Fragment) (ht : t <:+ f.text) :
    Ends (fun rest => rest <:+ t ∧ TypeName.skipHead g t = .ok rest) (p.skipHead f t) := by
  rw [skipHead, TypeName.skipHead]
  rcases readHead_cases p g f t with
    ⟨word, hread, hread', -, hrest, -⟩ | ⟨hread, hread'⟩ | ⟨hread, hread'⟩ <;> rw [hread, hread']
  · exact .ok ⟨hrest, rfl⟩
  · rw [flawAt, offsetOf_eq ht, ok_bind]
    dsimp only
    rw [if_pos rfl, if_pos rfl]
    exact .ok ⟨List.suffix_refl t, rfl⟩
  · exact .stop _

theorem skipArguments_ends (g : Fragment) (ht : t <:+ f.text) :
    Ends (fun rest => rest <:+ t ∧ TypeName.skipArguments g t = .ok rest) (p.skipArguments f t) := by
  rcases skipArguments_cases p g f t with
    ⟨rest, hskip, hskip', hended⟩ | ⟨flaw, rest, -, hskip', hrest, -⟩ <;> rw [hskip']
  · exact .ok ⟨hended.1, hskip⟩
  · exact flawAt_ends (hrest.trans ht)

theorem between_eq {part rest : Text} (h : part ++ rest <:+ f.text) :
    between f (part ++ rest) rest = .ok ⟨part, f.endOffset - byteSize (part ++ rest)⟩ := by
  rw [between, Slice.consumed?_eq (List.suffix_append part rest), Scanner.consumed_append, taken,
    ok_bind, offsetOf_eq h, ok_bind]

/-! ## One round -/

/-- Blanks, with at most one comma among them. -/
def IsSeparator (sep : Text) : Prop := ∃ front back, Separator front ∧ Blank back ∧ sep = front ++ back

/-- A comma is left behind a separator only if it is the second one. -/
theorem exists_isSeparator (t : Text) :
    ∃ sep, IsSeparator sep ∧ t = sep ++ TypeName.skipSeparator t ∧
      ((TypeName.skipSeparator t).head? = some ',' → ',' ∈ sep) := by
  obtain ⟨gap, hgap, ht⟩ := Text.exists_blank_append t
  unfold TypeName.skipSeparator
  split
  · next rest hrest =>
    obtain ⟨back, hback, hnext⟩ := Text.exists_blank_append rest
    refine ⟨gap ++ [','] ++ back, ⟨_, back, .comma hgap, hback, rfl⟩, ?_, fun _ => by simp⟩
    rw [List.append_assoc, List.append_assoc, ← hnext, List.singleton_append, ← hrest]
    exact ht
  · next hcomma =>
    refine ⟨gap, ⟨gap, [], .blank hgap, .nil, (List.append_nil gap).symm⟩, ht, fun hhead => ?_⟩
    obtain ⟨rest, hrest⟩ := List.head?_eq_some_iff.1 hhead
    exact absurd hrest (hcomma rest)

/-- One round of the loop: a separator, and the bracket that closes or one parameter. -/
def round (p : BytePass) (f : ByteFragment) (t : Text) : Except Halt (Option ByteFragment × Text) := do
  match ← skipSeparator t with
  | [] => p.flawBehind f .endOfInput
  | c :: next =>
    if c = '>' then .ok (none, next)
    else
      let after ← p.skipHead f (c :: next)
      let rest ← p.skipArguments f after
      let parameter ← between f (c :: next) rest
      .ok (some parameter, rest)

/-- What a round takes from the front of a rest of a fragment. -/
inductive Takes (f : ByteFragment) : Text → Option ByteFragment × Text → Prop
  | close {sep behind : Text} (hsep : IsSeparator sep) : Takes f (sep ++ '>' :: behind) (none, behind)
  | parameter {sep part rest : Text} (hsep : IsSeparator sep)
    (hcomma : (part ++ rest).head? = some ',' → ',' ∈ sep) (hempty : part = [] → rest.head? = some ',')
    (hlt : rest.length < (sep ++ (part ++ rest)).length) :
    Takes f (sep ++ (part ++ rest)) (some ⟨part, f.endOffset - byteSize (part ++ rest)⟩, rest)

/-- A parameter is empty only where a comma stands. -/
theorem empty_parameter {g : Fragment} {c : Char} {next after : Text}
    (hblank : Text.isBlank c = false) (hclose : c ≠ '>')
    (hhead : TypeName.skipHead g (c :: next) = .ok after)
    (hargs : TypeName.skipArguments g after = .ok (c :: next)) : c = ',' := by
  have hle := TypeName.skipArguments_le hargs
  rcases TypeName.skipHead_eq_or_lt hhead with rfl | hlt
  · rcases TypeName.skipArguments_start hargs hblank with rfl | hc | hc
    · rcases TypeName.skipArguments_eq_or_lt hargs (Text.trimStart_cons hblank next) with
        h | h | ⟨r, h⟩ | ⟨r, h⟩
      · exact absurd h (Nat.lt_irrefl _)
      all_goals cases h
    · exact absurd hc hclose
    · exact hc
  · omega

theorem round_ends (ht : t <:+ f.text) : Ends (Takes f t) (p.round f t) := by
  obtain ⟨sep, hsep, hsplit, hcomma⟩ := exists_isSeparator t
  rw [round, skipSeparator_eq, ok_bind]
  cases hnext : TypeName.skipSeparator t with
  | nil => exact flawBehind_ends
  | cons c next =>
    have hblank : Text.isBlank c = false := by
      rw [← TypeName.trimStart_skipSeparator] at hnext
      exact Text.isBlank_of_trimStart hnext
    have hstart : c :: next <:+ f.text := by
      rw [← hnext]
      exact (skipSeparator_suffix t).trans ht
    dsimp only
    by_cases hclose : c = '>'
    · subst hclose
      rw [if_pos rfl, hsplit, hnext]
      exact .ok (.close hsep)
    · rw [if_neg hclose]
      refine (skipHead_ends ⟨[], 0⟩ hstart).bind ?_
      rintro after ⟨hafter, hhead⟩
      refine (skipArguments_ends ⟨[], 0⟩ (hafter.trans hstart)).bind ?_
      rintro rest ⟨hrest, hargs⟩
      have hlt : rest.length < t.length :=
        TypeName.length_parameter_lt (by simp [hnext]) (by simp [hnext, hclose])
          (by rw [hnext]; exact hhead) hargs
      obtain ⟨part, hpart⟩ := hrest.trans hafter
      have hempty : part = [] → rest.head? = some ',' := by
        rintro rfl
        rw [List.nil_append] at hpart
        subst hpart
        exact congrArg some (empty_parameter hblank hclose hhead hargs)
      rw [hnext] at hsplit hcomma
      rw [← hpart] at hsplit hcomma hstart ⊢
      rw [between_eq hstart, ok_bind]
      rw [hsplit] at hlt ⊢
      exact .ok (.parameter hsep hcomma hempty hlt)

/-! ## The loop -/

/-- What the loop does behind a round. -/
def goOn (p : BytePass) (f : ByteFragment) :
    Option ByteFragment × Text → Except Halt (List ByteFragment × Text)
  | (none, behind) => .ok ([], behind)
  | (some q, rest) => do
    let (parameters, behind) ← p.parametersFrom f rest
    .ok (q :: parameters, behind)

theorem round_shortens {q : ByteFragment} {rest : Text} (ht : t <:+ f.text)
    (h : p.round f t = .ok (some q, rest)) : rest.length < t.length := by
  cases (round_ends ht).of_ok h with
  | parameter _ _ _ hlt => exact hlt

/-- The loop is nothing but its rounds. -/
theorem parametersFrom_eq (ht : t <:+ f.text) :
    p.parametersFrom f t = p.round f t >>= p.goOn f := by
  have hshort : ∀ q rest, p.round f t = .ok (some q, rest) → rest.length < t.length :=
    fun _ _ => round_shortens ht
  rw [round, skipSeparator_eq, ok_bind] at hshort
  rw [parametersFrom, round, skipSeparator_eq, ok_bind, ok_bind]
  cases hnext : TypeName.skipSeparator t with
  | nil => rfl
  | cons c next =>
    rw [hnext] at hshort
    dsimp only at hshort ⊢
    by_cases hclose : c = '>'
    · rw [if_pos hclose, if_pos hclose]
      rfl
    · rw [if_neg hclose] at hshort ⊢
      rw [if_neg hclose]
      cases hafter : p.skipHead f (c :: next) with
      | error => rfl
      | ok after =>
        cases hrest : p.skipArguments f after with
        | error => simp only [ok_bind, hrest, error_bind]
        | ok rest =>
          cases hpart : between f (c :: next) rest with
          | error => simp only [ok_bind, hrest, hpart, error_bind]
          | ok part =>
            -- what the round leaves is what the guard asks for
            simp only [hafter, hrest, hpart, ok_bind] at hshort ⊢
            rw [if_pos (hshort part rest rfl)]
            rfl

/-! ## Layout -/

/-- A part of the input stands where it says. -/
def Stands (input : Text) (q : ByteFragment) : Prop :=
  ∃ front behind, input = front ++ (q.text ++ behind) ∧ q.offset = byteSize front

/-- Parameters with separators around them and the bracket that closes, from a place on. -/
inductive Lists : Nat → Text → List ByteFragment → Prop
  | close {place : Nat} {sep : Text} (hsep : IsSeparator sep) : Lists place (sep ++ ['>']) []
  | next {place : Nat} {sep more : Text} {q : ByteFragment} {qs : List ByteFragment}
    (hsep : IsSeparator sep) (hplace : q.offset = place + byteSize sep)
    (hcomma : (q.text ++ more).head? = some ',' → ',' ∈ sep)
    (hempty : q.text = [] → more.head? = some ',') (hmore : Lists q.endOffset more qs) :
    Lists place (sep ++ (q.text ++ more)) (q :: qs)

namespace Lists

variable {place : Nat} {body : Text} {qs : List ByteFragment}

theorem ne_nil (h : Lists place body qs) : body ≠ [] := by
  induction h with
  | close => simp
  | next _ _ _ _ _ ih => simp [ih]

/-- Behind a comma that was left the first parameter starts later. -/
theorem first_le (h : Lists place body qs) :
    ∀ q ∈ qs, place ≤ q.offset ∧ (body.head? = some ',' → place < q.offset) := by
  induction h with
  | close => simp
  | @next place sep more q qs hsep hplace hcomma hempty hmore ih =>
    have hfirst : place ≤ q.offset ∧
        ((sep ++ (q.text ++ more)).head? = some ',' → place < q.offset) := by
      refine ⟨by omega, fun hhead => ?_⟩
      have hne : sep ≠ [] := by
        rintro rfl
        exact List.not_mem_nil (hcomma hhead)
      have := Text.byteSize_pos hne
      omega
    refine List.forall_mem_cons.2 ⟨hfirst, fun r hr => ?_⟩
    have hr := (ih r hr).1
    have hend : q.offset ≤ q.endOffset := Nat.le_add_right _ _
    exact ⟨by omega, fun hhead => by have := hfirst.2 hhead; omega⟩

theorem pairwise (h : Lists place body qs) :
    qs.Pairwise fun q r => q.offset < r.offset ∧ q.endOffset ≤ r.offset := by
  induction h with
  | close => exact .nil
  | @next place sep more q qs hsep hplace hcomma hempty hmore ih =>
    refine .cons (fun r hr => ?_) ih
    obtain ⟨hle, hlt⟩ := hmore.first_le r hr
    refine ⟨?_, hle⟩
    by_cases htext : q.text = []
    · exact Nat.lt_of_le_of_lt (Nat.le_add_right _ _) (hlt (hempty htext))
    · exact Nat.lt_of_lt_of_le (Nat.lt_add_of_pos_right (Text.byteSize_pos htext)) hle

theorem stands {input : Text} (h : Lists place body qs) (front behind : Text)
    (hplace : place = byteSize front) (hinput : input = front ++ (body ++ behind)) :
    ∀ q ∈ qs, Stands input q := by
  induction h generalizing front with
  | close => simp
  | @next place sep more q qs hsep hoffset hcomma hempty hmore ih =>
    refine List.forall_mem_cons.2 ⟨⟨front ++ sep, more ++ behind, ?_, ?_⟩, ?_⟩
    · simp [hinput]
    · rw [hoffset, hplace, byteSize_append]
    · refine ih (front ++ sep ++ q.text) ?_ (by simp [hinput])
      rw [ByteFragment.endOffset, hoffset, hplace, byteSize_append, byteSize_append]

end Lists

theorem parametersFrom_ends (ht : t <:+ f.text) :
    Ends (fun a => ∃ body, t = body ++ a.2 ∧ Lists (f.endOffset - byteSize t) body a.1)
      (p.parametersFrom f t) := by
  induction hn : t.length using Nat.strongRecOn generalizing t with
  | _ n ih =>
  subst hn
  rw [parametersFrom_eq ht]
  refine (round_ends ht).bind ?_
  rintro a htakes
  cases htakes with
  | close hsep => exact .ok ⟨_, by simp, .close hsep⟩
  | @parameter sep part rest hsep hcomma hempty hlt =>
    have hrest : rest <:+ f.text := ((List.suffix_append _ _).trans (List.suffix_append _ _)).trans ht
    have hsize := byteSize_le_endOffset ht
    refine (ih _ hlt hrest rfl).bind ?_
    rintro ⟨qs, behind⟩ ⟨body, rfl, hlists⟩
    have hfirst : ∀ front : Text, (front ++ (body ++ behind)).head? = (front ++ body).head? :=
      TypeName.head?_append_congr (List.head?_append_of_ne_nil _ hlists.ne_nil)
    rw [hfirst] at hcomma
    rw [← List.nil_append (body ++ behind), hfirst] at hempty
    simp only [byteSize_append] at hsize hlists ⊢
    refine .ok ⟨sep ++ (part ++ body), by simp, ?_⟩
    refine .next (q := ⟨part, _⟩) hsep ?_ hcomma hempty ?_
    · dsimp only
      omega
    · have hend : f.endOffset - (byteSize part + (byteSize body + byteSize behind)) + byteSize part =
          f.endOffset - (byteSize body + byteSize behind) := by omega
      rwa [ByteFragment.endOffset, hend]

/-! ## The parameters of a type -/

/-- Where parameters stand that were cut out behind a name. -/
structure LaidOut (input : Text) (f : ByteFragment) (t behind : Text) (qs : List ByteFragment) : Prop where
  lists : ∃ front sep body, f.text = front ++ t ∧
    t = sep ++ '<' :: (body ++ behind) ∧ IsSeparator sep ∧
    Lists (f.offset + byteSize (front ++ sep ++ ['<'])) body qs
  inOrder : qs.Pairwise fun q r => q.offset < r.offset ∧ q.endOffset ≤ r.offset
  stand : Stands input f → ∀ q ∈ qs, Stands input q

theorem LaidOut.of_lists {input front sep body behind : Text} {qs : List ByteFragment}
    (hfront : f.text = front ++ (sep ++ '<' :: (body ++ behind))) (hsep : IsSeparator sep)
    (hlists : Lists (f.offset + byteSize (front ++ sep ++ ['<'])) body qs) :
    LaidOut input f (sep ++ '<' :: (body ++ behind)) behind qs where
  lists := ⟨front, sep, body, hfront, rfl, hsep, hlists⟩
  inOrder := hlists.pairwise
  stand := by
    rintro ⟨before, after, hinput, hoffset⟩
    refine hlists.stands (before ++ (front ++ sep ++ ['<'])) (behind ++ after) ?_ ?_
    · rw [hoffset]
      exact (byteSize_append _ _).symm
    · rw [hinput, hfront]
      simp

theorem parameters_ends (ht : t <:+ f.text) :
    Ends (fun a => IsSeparator t ∧ a = ([], []) ∨ LaidOut p.input f t a.2 a.1) (p.parameters f t) := by
  obtain ⟨sep, hsep, hsplit, -⟩ := exists_isSeparator t
  rw [parameters, skipSeparator_eq, ok_bind]
  cases hnext : TypeName.skipSeparator t with
  | nil =>
    rw [hnext, List.append_nil] at hsplit
    exact .ok (.inl ⟨hsplit ▸ hsep, rfl⟩)
  | cons c rest =>
    have hstart : c :: rest <:+ f.text := hnext ▸ (skipSeparator_suffix t).trans ht
    dsimp only
    split
    · next hopen =>
      subst hopen
      obtain ⟨front, hfront⟩ := ht
      rw [hnext] at hsplit
      subst hsplit
      refine (parametersFrom_ends ((List.suffix_cons _ _).trans hstart)).mono ?_
      rintro ⟨qs, behind⟩ ⟨body, rfl, hlists⟩
      refine .inr (.of_lists hfront.symm hsep ?_)
      have hplace : f.endOffset - byteSize (body ++ behind) =
          f.offset + byteSize (front ++ sep ++ ['<']) := by
        have hone := Text.byteSize_singleton '<'
        rw [ByteFragment.endOffset, ← hfront]
        simp only [byteSize_append, byteSize_cons] at hone ⊢
        omega
      rwa [hplace] at hlists
    · exact flawAt_ends hstart

/-- The fragments that a pass comes to: the whole input, and parameters of fragments. -/
inductive Reaches (p : BytePass) : ByteFragment → Prop
  | whole : Reaches p ⟨p.input, 0⟩
  | parameter {f q : ByteFragment} {t behind : Text} {qs : List ByteFragment} (hf : Reaches p f)
    (ht : t <:+ f.text) (hok : p.parameters f t = .ok (qs, behind)) (hq : q ∈ qs) : Reaches p q

theorem Reaches.stands {q : ByteFragment} (h : p.Reaches q) : Stands p.input q := by
  induction h with
  | whole => exact ⟨[], [], (List.append_nil _).symm, rfl⟩
  | parameter _ ht hok hq ih =>
    rcases (parameters_ends ht).of_ok hok with ⟨-, hnone⟩ | hlaid
    · cases hnone
      cases hq
    · exact hlaid.stand ih _ hq

/-- Parameters are cut out without a breakdown, in rounds each of which leaves less of the text. Behind
an opening bracket nothing but the parameters, in order, and separators are taken up to the bracket that
closes, and each parameter stands in the input where it says, at any depth. -/
theorem parameters_layout (p : BytePass) (f : ByteFragment) {t : Text} (ht : t <:+ f.text) :
    (∀ u, u <:+ f.text →
      (∀ breakdown, p.skipArguments f u ≠ .error (.broken breakdown)) ∧
      (∀ breakdown, p.round f u ≠ .error (.broken breakdown)) ∧
      (∀ q rest, p.round f u = .ok (some q, rest) → rest.length < u.length) ∧
      p.parametersFrom f u = p.round f u >>= p.goOn f) ∧
    (∀ breakdown, p.parameters f t ≠ .error (.broken breakdown)) ∧
    (∀ qs behind, p.parameters f t = .ok (qs, behind) →
      IsSeparator t ∧ (qs, behind) = ([], []) ∨ LaidOut p.input f t behind qs) ∧
    ∀ q, p.Reaches q → Stands p.input q :=
  ⟨fun _ hu => ⟨(skipArguments_ends ⟨[], 0⟩ hu).not_broken, (round_ends hu).not_broken,
      fun _ _ => round_shortens hu, parametersFrom_eq hu⟩,
    (parameters_ends ht).not_broken, fun _ _ hok => (parameters_ends ht).of_ok hok,
    fun _ hq => hq.stands⟩

/-- A name of more bytes than characters with a bracket inside of it, and a parameter that is missing. -/
theorem parameters_layout_tuple :
    let p : BytePass := { TypePass.collecting 3 with input := "tuple<\"é>\" , ,list<int>>".toList }
    ∃ qs, p.parameters ⟨p.input, 0⟩ "<\"é>\" , ,list<int>>".toList = .ok (qs, []) ∧
      qs = [⟨"\"é>\" ".toList, 6⟩, ⟨[], 14⟩, ⟨"list<int>".toList, 15⟩] ∧
      LaidOut p.input ⟨p.input, 0⟩ "<\"é>\" , ,list<int>>".toList [] qs := by
  intro p
  have hrest : "<\"é>\" , ,list<int>>".toList <:+ p.input := ⟨"tuple".toList, rfl⟩
  have hok : p.parameters ⟨p.input, 0⟩ "<\"é>\" , ,list<int>>".toList =
      .ok ([⟨"\"é>\" ".toList, 6⟩, ⟨[], 14⟩, ⟨"list<int>".toList, 15⟩], []) := by decide +kernel
  obtain ⟨-, -, hlayout, -⟩ := parameters_layout p ⟨p.input, 0⟩ hrest
  refine ⟨_, hok, rfl, ?_⟩
  rcases hlayout _ _ hok with ⟨-, hnone⟩ | hlaid
  · cases hnone
  · exact hlaid

end BytePass

end Cql
