import Cql.Proofs.ByteFragments
import Cql.Proofs.TypeReferences

/-!
Where faults point. A pass over the bytes of an input goes the way of a pass over its characters, level
by level: it never breaks down, it notes the same names down, and where it stops there stands in the
whole input what is told of.
-/

namespace Cql

open Cql.TypeName (Stop Head)

namespace BytePass

variable {p : BytePass} {f : Fragment} {g : ByteFragment}

/-! ## Whole passes -/

/-- The same for work that notes names down: both note the same ones. -/
def Works (input : Text) {α β : Type} (R : α → β → Prop) (work : TypePass.Work α) (work' : Work β) :
    Prop :=
  ∀ noted, Agrees input (fun a b => R a.1 b.1 ∧ a.2 = b.2) (work.run noted) (work'.run noted)

namespace Works

variable {input : Text} {α β γ δ : Type} {R : α → β → Prop} {S : γ → δ → Prop}

theorem bind {work : TypePass.Work α} {work' : Work β} {next : α → TypePass.Work γ}
    {next' : β → Work δ} (h : Works input R work work')
    (hnext : ∀ a b, R a b → Works input S (next a) (next' b)) :
    Works input S (work >>= next) (work' >>= next') := by
  intro noted
  rw [StateT.run_bind, StateT.run_bind]
  refine (h noted).bind ?_
  rintro ⟨a, noted'⟩ ⟨b, _⟩ - ⟨hab, rfl⟩
  exact hnext a b hab noted'

theorem pure {a : α} {b : β} (h : R a b) : Works input R (pure a) (pure b) := fun _ => .ok ⟨h, rfl⟩

/-- Work on the text alone. -/
theorem lift {x : Except Stop α} {y : Except Halt β} (h : Agrees input R x y) :
    Works input R (liftM x) (liftM y) := by
  intro noted
  cases h with
  | ok h => exact .ok ⟨h, rfl⟩
  | stop h => exact .stop h

theorem mapM {f : α → TypePass.Work γ} {g : β → Work δ} (h : ∀ a b, R a b → Works input S (f a) (g b))
    {as : List α} {bs : List β} (hlies : List.Forall₂ R as bs) :
    Works input (List.Forall₂ S) (as.mapM f) (bs.mapM g) := by
  induction hlies with
  | nil => exact .pure .nil
  | cons hab _ ih =>
    rw [List.mapM_cons, List.mapM_cons]
    exact (h _ _ hab).bind fun _ _ hfirst => ih.bind fun _ _ hmore => .pure (.cons hfirst hmore)

end Works

/-- Nothing goes wrong with a part that is there. -/
theorem taken_bind {α β : Type} (a : α) (next : α → Work β) :
    (liftM (taken (some a)) >>= next) = next a := rfl

theorem userType_works (name : String) (frozen : Bool) :
    Works p.input Eq (p.userType name frozen) (ofPass (p.userType name frozen)) := by
  intro noted
  obtain ⟨found, hfound⟩ : ∃ found, (p.userType name frozen).run noted = .ok found := by
    rw [TypePass.userType]
    split
    · split
      · exact ⟨_, rfl⟩
      · exact ⟨_, rfl⟩
    · exact ⟨_, rfl⟩
  have hsame : (ofPass (p.userType name frozen)).run noted = .ok found := by
    show ((p.userType name frozen).run noted).mapError Halt.stop = .ok found
    rw [hfound]
    rfl
  rw [hfound, hsame]
  exact .ok ⟨rfl, rfl⟩

section Parameters

variable {parameter : Fragment → Bool → TypePass.Work ColumnType}
  {parameter' : ByteFragment → Bool → Work ColumnType}
  (hparameter : ∀ f g frozen, Lies p.input f g → Works p.input Eq (parameter f frozen) (parameter' g frozen))

/-- A type that was read, and a rest of a text. -/
def TypeOf (t : Text) (a b : ColumnType × Text) : Prop := a = b ∧ a.2 <:+ t

include hparameter

/-- A keyword in front of one parameter. -/
theorem one_works {k : TypeKeyword} {start t : Text} (h : Lies p.input f g) (hstart : start <:+ f.text)
    (ht : t <:+ f.text) (hkeyword : TypeName.Keyword k (start.takeWhile Identifier.isNameChar))
    (inner : Bool) (type : ColumnType → ColumnType) :
    Works p.input (TypeOf t)
      (liftM (TypeName.oneParameter f k start t) >>= fun q =>
        parameter q.1 inner >>= fun element => pure (type element, q.2))
      (liftM (p.oneParameter g k start t) >>= fun q =>
        parameter' q.1 inner >>= fun element => pure (type element, q.2)) := by
  refine (Works.lift (oneParameter_agrees h hstart ht hkeyword)).bind ?_
  rintro ⟨q, rest⟩ ⟨q', _⟩ ⟨hlies, rfl, hrest⟩
  refine (hparameter q q' inner hlies).bind ?_
  rintro element _ rfl
  exact .pure ⟨rfl, hrest⟩

theorem keyword_works {k : TypeKeyword} {start t : Text} (h : Lies p.input f g)
    (hstart : start <:+ f.text) (ht : t <:+ f.text)
    (hkeyword : TypeName.Keyword k (start.takeWhile Identifier.isNameChar)) (frozen : Bool) :
    Works p.input (TypeOf t) (p.toTypePass.keyword parameter f k start t frozen)
      (p.keyword parameter' g k start t frozen) := by
  cases k with
  | native type => exact .pure ⟨rfl, List.suffix_refl t⟩
  | empty => exact .pure ⟨rfl, List.suffix_refl t⟩
  | list => exact one_works hparameter h hstart ht hkeyword false fun element => .list element frozen
  | set => exact one_works hparameter h hstart ht hkeyword false fun element => .set element frozen
  | frozen => exact one_works hparameter h hstart ht hkeyword true id
  | map =>
    refine (Works.lift (twoParameters_agrees h hstart ht hkeyword)).bind ?_
    rintro ⟨key, value, rest⟩ ⟨key', value', _⟩ ⟨hkey, hvalue, rfl, hrest⟩
    refine (hparameter key key' false hkey).bind ?_
    rintro k _ rfl
    refine (hparameter value value' false hvalue).bind ?_
    rintro v _ rfl
    exact .pure ⟨rfl, hrest⟩
  | tuple =>
    refine (Works.lift (parameters_agrees h ht)).bind ?_
    rintro ⟨elements, rest⟩ ⟨elements', _⟩ ⟨hlies, rfl, hrest⟩
    refine (Works.mapM (fun q q' hq => hparameter q q' false hq) hlies).bind ?_
    rintro types types' htypes
    rw [List.forall₂_eq_eq_eq] at htypes
    subst htypes
    exact .pure ⟨rfl, hrest⟩

theorem head_works {start t : Text} {word : Head} (h : Lies p.input f g) (hstart : start <:+ f.text)
    (ht : t <:+ f.text) (hword : ∀ name, word = .bare name → name = start.takeWhile Identifier.isNameChar)
    (frozen : Bool) :
    Works p.input (TypeOf t) (p.toTypePass.head parameter f start frozen word t)
      (p.head parameter' g start frozen word t) := by
  have huser : ∀ name, Works p.input (TypeOf t)
      (p.userType name frozen >>= fun type => pure (type, t))
      (ofPass (p.userType name frozen) >>= fun type => pure (type, t)) := by
    intro name
    refine (userType_works name frozen).bind ?_
    rintro type _ rfl
    exact .pure ⟨rfl, List.suffix_refl t⟩
  cases word with
  | quoted name => exact huser _
  | bare name =>
    rw [TypePass.head, head]
    cases hkeyword : TypeKeyword.ofName? name with
    | none => exact huser _
    | some k =>
      refine keyword_works hparameter h hstart ht ?_ frozen
      rw [← hword name rfl]
      exact TypeName.keyword_of_ofName? hkeyword

theorem whole_works (h : Lies p.input f g) (frozen : Bool) :
    Works p.input Eq (p.toTypePass.whole parameter f frozen) (p.whole parameter' g frozen) := by
  have htext : g.text = f.text := by
    obtain ⟨_, _, _, _, rfl, _⟩ := h
    rfl
  have hblank : ∀ {t : Text}, t <:+ f.text → Text.trimStart t <:+ f.text := fun ht =>
    (List.dropWhile_suffix _).trans ht
  have hstart := hblank (List.suffix_refl f.text)
  rw [TypePass.whole, whole, htext, Slice.trimStart?_eq, taken_bind]
  refine (Works.lift (readHead_agrees h hstart)).bind ?_
  rintro ⟨word, t⟩ _ ⟨rfl, ht, hword⟩
  refine (head_works hparameter h hstart (ht.trans hstart) hword frozen).bind ?_
  rintro ⟨type, rest⟩ _ ⟨rfl, hrest⟩
  have hbehind := hblank ((hrest.trans ht).trans hstart)
  dsimp only
  rw [Slice.trimStart?_eq, taken_bind]
  cases hcons : Text.trimStart rest with
  | nil => exact .pure rfl
  | cons c behind =>
    rw [hcons] at hbehind
    exact Works.lift (flawAt_agrees h hbehind fun _ _ => rfl)

end Parameters

theorem level_works (levels : Nat) (h : Lies p.input f g) (frozen : Bool) :
    Works p.input Eq (p.toTypePass.level levels f frozen) (p.level levels g frozen) := by
  induction levels generalizing f g frozen with
  | zero =>
    refine whole_works (fun q q' _ hq => ?_) h frozen
    obtain ⟨before, behind, hinput, hoffset, rfl, -⟩ := hq
    have hposition := positionAt_eq hinput
    rw [hoffset, hposition]
    exact fun noted => .stop ⟨before, _, hinput, rfl, trivial⟩
  | succ levels ih => exact whole_works (fun q q' frozen hq => ih hq frozen) h frozen

end BytePass

/-- The fault stands in the input, and where it stands there is what it is about. -/
structure TypeName.Fault.PointsInto (input : Text) (fault : Fault) : Prop where
  whole : fault.input = input
  low : 1 ≤ fault.position
  high : fault.position ≤ input.length + 1
  found : ∀ found expected, fault.flaw = .unexpected found expected →
    input[fault.position - 1]? = some found
  bracket : fault.flaw = .openBrackets → input[fault.position - 1]? = some '<'
  keyword : ∀ keyword expected got, fault.flaw = .parameterCount keyword expected got →
    got ≠ expected ∧ Text.sameWord keyword.name.toList
      ((input.drop (fault.position - 1)).takeWhile Identifier.isNameChar) = true

theorem TypeName.Stop.PointsInto.fault {input : Text} {stop : Stop} (h : stop.PointsInto input) :
    Fault.PointsInto input ⟨input, stop.position, stop.flaw⟩ := by
  obtain ⟨before, t, rfl, hposition, hnames⟩ := h
  have hindex : stop.position - 1 = before.length := by rw [hposition, Nat.add_sub_cancel]
  have hfirst : (before ++ t)[stop.position - 1]? = t.head? := by
    rw [hindex, List.getElem?_append_right (Nat.le_refl _), Nat.sub_self, List.head?_eq_getElem?]
  have hrest : (before ++ t).drop (stop.position - 1) = t := by rw [hindex, List.drop_left]
  refine ⟨rfl, ?_, ?_, ?_, ?_, ?_⟩
  · exact hposition ▸ Nat.le_add_left 1 _
  · show stop.position ≤ _
    rw [hposition, List.length_append]
    omega
  · intro found expected hflaw
    have hflaw : stop.flaw = .unexpected found expected := hflaw
    rw [hflaw] at hnames
    exact hfirst.trans hnames
  · intro hflaw
    have hflaw : stop.flaw = .openBrackets := hflaw
    rw [hflaw] at hnames
    exact hfirst.trans hnames
  · intro keyword expected got hflaw
    have hflaw : stop.flaw = .parameterCount keyword expected got := hflaw
    rw [hflaw] at hnames
    dsimp only
    rw [hrest]
    exact hnames

theorem BytePass.run_agrees (p : BytePass) (frozen : Bool) :
    p.run frozen = .ok (p.toTypePass.run frozen p.input) ∧
      ∀ fault, p.toTypePass.run frozen p.input = .error fault → fault.PointsInto p.input := by
  have hlies : Lies p.input ⟨p.input, 0⟩ ⟨p.input, 0⟩ := by
    refine ⟨[], [], (List.append_nil p.input).symm, rfl, rfl, .inr fun c hc => ?_⟩
    cases hc
  have hlevel := level_works p.limit hlies frozen []
  rw [run, TypePass.run]
  generalize (p.toTypePass.level p.limit ⟨p.input, 0⟩ frozen).run [] = x,
    (p.level p.limit ⟨p.input, 0⟩ frozen).run [] = y at hlevel
  cases hlevel with
  | @ok found found' h =>
    obtain ⟨type, missing⟩ := found
    obtain ⟨type', missing'⟩ := found'
    obtain ⟨rfl, rfl⟩ := h
    refine ⟨rfl, fun fault hfault => ?_⟩
    cases hfault
  | stop h =>
    refine ⟨rfl, fun fault hfault => ?_⟩
    cases hfault
    exact h.fault

/-- Faults point at what they are about: whatever the input and however deep its parameters are nested,
work on its bytes never takes a text apart inside a character and comes to the answer that work on its
characters comes to, and the position of a fault is that of the character, the bracket or the keyword
that is told of. -/
theorem BytePass.faults_point (limit : Nat) (scope : TypeScope) (keyspace : String) (frozen : Bool)
    (input : Text) :
    parse limit scope keyspace frozen input =
        .ok (TypePass.parse limit scope keyspace frozen input) ∧
      ∀ fault, TypePass.parse limit scope keyspace frozen input = .error fault →
        fault.PointsInto input :=
  run_agrees { TypePass.resolving limit scope keyspace with input } frozen

/-- Of three characters in front of the keyword each takes more bytes than the one before. -/
theorem BytePass.faults_point_nested :
    ∃ fault, parse 64 .none "ks" false "tuple<\"é€😀\", List<int, text>>".toList = .ok (.error fault) ∧
      fault = ⟨"tuple<\"é€😀\", List<int, text>>".toList, 14, .parameterCount .list 1 2⟩ ∧
      fault.PointsInto "tuple<\"é€😀\", List<int, text>>".toList := by
  have hparse : TypePass.parse 64 .none "ks" false "tuple<\"é€😀\", List<int, text>>".toList =
      .error ⟨"tuple<\"é€😀\", List<int, text>>".toList, 14, .parameterCount .list 1 2⟩ := by decide +kernel
  obtain ⟨hbytes, hpoints⟩ := faults_point 64 .none "ks" false "tuple<\"é€😀\", List<int, text>>".toList
  exact ⟨_, hbytes.trans (congrArg _ hparse), rfl, hpoints _ hparse⟩

end Cql
