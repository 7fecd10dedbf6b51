import Cql.Proofs.TypeReferences
import Cql.Proofs.TypeText

/-!
Reading one level in two steps: a fragment is cut into the name of a type, its parameters and the text
behind them, and only then are the parameters read. Nothing that goes wrong before has to do with how
deep parameters are nested.
-/

namespace Cql.TypeName

/-- A fragment of which only the name of the type was read. -/
structure Cut where
  /-- An expression with this name; its parameters are not those of the fragment. -/
  form : TypeName
  parts : List Fragment
  behind : Text

/-- The type that a cut stands for, once its parameters are read. -/
def Cut.read (parameter : Fragment → Except Stop TypeName) (c : Cut) :
    Except Stop (TypeName × Text) := do
  let es ← c.parts.mapM parameter
  .ok (c.form.withParams es, c.behind)

/-- A keyword with as many parameters as an expression of its form has. -/
def cutFixed (f : Fragment) (keyword : TypeKeyword) (form : TypeName) (start t : Text) :
    Except Stop Cut := do
  let (parts, behind) ← parameters f t
  if parts.length = form.params.length then .ok ⟨form, parts, behind⟩
  else .error ⟨f.position start, .parameterCount keyword form.params.length parts.length⟩

def cutKeyword (f : Fragment) (keyword : TypeKeyword) (start t : Text) : Except Stop Cut :=
  match keyword with
  | .native type => .ok ⟨.native type, [], t⟩
  | .empty => .ok ⟨.empty, [], t⟩
  | .list => cutFixed f .list (.list .empty) start t
  | .set => cutFixed f .set (.set .empty) start t
  | .map => cutFixed f .map (.map .empty .empty) start t
  | .frozen => cutFixed f .frozen (.frozen .empty) start t
  | .tuple => do
    let (parts, behind) ← parameters f t
    .ok ⟨.tuple [], parts, behind⟩

/-- Cuts what starts with a word. -/
def cutWord (f : Fragment) (start : Text) : Head → Text → Except Stop Cut
  | .quoted name, t => .ok ⟨.user (String.ofList name), [], t⟩
  | .bare name, t =>
    match TypeKeyword.ofName? name with
    | some keyword => cutKeyword f keyword start t
    | none => .ok ⟨.user (String.ofList name), [], t⟩

/-- Cuts a whole fragment. -/
def cut (f : Fragment) : Except Stop Cut := do
  let (word, t) ← readHead f (Text.trimStart f.text)
  cutWord f (Text.trimStart f.text) word t

/-- What is cut depends on the name. -/
theorem cut_word {f : Fragment} {before word rest : Text} {head : Head} (hbefore : Text.Blank before)
    (hword : IsHead head word) (hrest : head.EndsAt rest) (hf : f.text = before ++ (word ++ rest)) :
    cut f = cutWord f (word ++ rest) head rest := by
  rw [cut, hf, trimStart_head hbefore hword, hword.readHead_of_ends f hrest, ok_bind]

/-! ## Cutting first, reading later -/

section Read

variable (parameter : Fragment → Except Stop TypeName) (f : Fragment)

theorem oneParameter_eq (keyword : TypeKeyword) (form : TypeName) (hone : form.params.length = 1)
    (start t : Text) :
    (oneParameter f keyword start t >>= fun (p, behind) => parameter p >>= fun e =>
      .ok (form.withParams [e], behind)) = cutFixed f keyword form start t >>= Cut.read parameter := by
  rw [oneParameter, cutFixed, hone]
  cases parameters f t with
  | error stop => rfl
  | ok found =>
    obtain ⟨parts, behind⟩ := found
    by_cases hlength : parts.length = 1
    · obtain ⟨p, rfl⟩ := List.length_eq_one_iff.1 hlength
      simp only [ok_bind, List.length_singleton, ↓reduceIte, Cut.read, List.mapM_cons, List.mapM_nil,
        pure_eq_ok]
      cases parameter p <;> rfl
    · rw [ok_bind, ok_bind]
      dsimp only
      rw [if_neg hlength]
      split
      · next heq =>
        cases heq
        exact absurd rfl hlength
      · next heq =>
        cases heq
        rfl

theorem twoParameters_eq (keyword : TypeKeyword) (form : TypeName) (htwo : form.params.length = 2)
    (start t : Text) :
    (twoParameters f keyword start t >>= fun (p, q, behind) => parameter p >>= fun k =>
      parameter q >>= fun v => .ok (form.withParams [k, v], behind)) =
      cutFixed f keyword form start t >>= Cut.read parameter := by
  rw [twoParameters, cutFixed, htwo]
  cases parameters f t with
  | error stop => rfl
  | ok found =>
    obtain ⟨parts, behind⟩ := found
    by_cases hlength : parts.length = 2
    · obtain ⟨p, q, rfl⟩ := List.length_eq_two.1 hlength
      simp only [ok_bind, List.length_cons, List.length_nil, ↓reduceIte, Cut.read, List.mapM_cons,
        List.mapM_nil, pure_eq_ok]
      cases parameter p with
      | error stop => rfl
      | ok k => cases parameter q <;> rfl
    · rw [ok_bind, ok_bind]
      dsimp only
      rw [if_neg hlength]
      split
      · next heq =>
        cases heq
        exact absurd rfl hlength
      · next heq =>
        cases heq
        rfl

theorem readKeyword_eq (keyword : TypeKeyword) (start t : Text) :
    readKeyword parameter f keyword start t =
      cutKeyword f keyword start t >>= Cut.read parameter := by
  cases keyword with
  | native type => rfl
  | empty => rfl
  | list => exact oneParameter_eq parameter f .list (.list .empty) rfl start t
  | set => exact oneParameter_eq parameter f .set (.set .empty) rfl start t
  | frozen => exact oneParameter_eq parameter f .frozen (.frozen .empty) rfl start t
  | map => exact twoParameters_eq parameter f .map (.map .empty .empty) rfl start t
  | tuple =>
    rw [readKeyword, cutKeyword]
    cases parameters f t <;> rfl

theorem readWord_eq (start : Text) (word : Head) (t : Text) :
    readWord parameter f start word t = cutWord f start word t >>= Cut.read parameter := by
  cases word with
  | quoted name => rfl
  | bare name =>
    rw [readWord, cutWord]
    cases TypeKeyword.ofName? name with
    | none => rfl
    | some keyword => exact readKeyword_eq parameter f keyword start t

/-- A fragment is cut, its parameters are read, and what stands behind may only be blank. -/
theorem readWith_cut :
    readWith parameter f =
      cut f >>= fun c => c.read parameter >>= fun (e, behind) => finish f e behind := by
  rw [readWith_eq, cut]
  cases readHead f (Text.trimStart f.text) with
  | error stop => rfl
  | ok head =>
    obtain ⟨word, t⟩ := head
    rw [ok_bind, ok_bind]
    dsimp only
    rw [readWord_eq]
    cases cutWord f (Text.trimStart f.text) word t <;> rfl

end Read

/-! ## Forms -/

/-- The parameters of a cut may be put in the places of its form. -/
def Cut.Fits (c : Cut) : Prop :=
  ∀ es : List TypeName, es.length = c.parts.length → (c.form.withParams es).params = es

theorem cutFixed_fits {f : Fragment} {keyword : TypeKeyword} {form : TypeName} {start t : Text}
    (hform : ∀ es : List TypeName, es.length = form.params.length → (form.withParams es).params = es)
    {c : Cut} (h : cutFixed f keyword form start t = .ok c) : c.Fits := by
  rw [cutFixed, bind_ok_iff] at h
  obtain ⟨⟨parts, behind⟩, -, h⟩ := h
  dsimp only at h
  split at h
  · next hlength =>
    cases h
    intro es hes
    exact hform es (hes.trans hlength)
  · cases h

theorem Cut.fits_of_parts_nil {c : Cut} (hparts : c.parts = []) (hform : c.form.params = []) :
    c.Fits := by
  intro es hes
  rw [hparts, List.length_nil, List.length_eq_zero_iff] at hes
  rw [hes, ← hform, withParams_params]

theorem cutKeyword_fits {f : Fragment} {keyword : TypeKeyword} {start t : Text} {c : Cut}
    (h : cutKeyword f keyword start t = .ok c) : c.Fits := by
  have hone : ∀ es : List TypeName, es.length = 1 → ∃ e, es = [e] :=
    fun _ => List.length_eq_one_iff.1
  cases keyword with
  | native type =>
    cases h
    exact Cut.fits_of_parts_nil rfl rfl
  | empty =>
    cases h
    exact Cut.fits_of_parts_nil rfl rfl
  | list =>
    refine cutFixed_fits (fun es hes => ?_) h
    obtain ⟨e, rfl⟩ := hone es hes
    rfl
  | set =>
    refine cutFixed_fits (fun es hes => ?_) h
    obtain ⟨e, rfl⟩ := hone es hes
    rfl
  | frozen =>
    refine cutFixed_fits (fun es hes => ?_) h
    obtain ⟨e, rfl⟩ := hone es hes
    rfl
  | map =>
    refine cutFixed_fits (fun es hes => ?_) h
    obtain ⟨k, v, rfl⟩ := List.length_eq_two.1 hes
    rfl
  | tuple =>
    rw [cutKeyword, bind_ok_iff] at h
    obtain ⟨⟨parts, behind⟩, -, h⟩ := h
    cases h
    exact fun es _ => rfl

theorem cut_fits {f : Fragment} {c : Cut} (h : cut f = .ok c) : c.Fits := by
  rw [cut, bind_ok_iff] at h
  obtain ⟨⟨word, t⟩, -, h⟩ := h
  cases word with
  | quoted name =>
    cases h
    exact Cut.fits_of_parts_nil rfl rfl
  | bare name =>
    simp only [cutWord] at h
    split at h
    · exact cutKeyword_fits h
    · cases h
      exact Cut.fits_of_parts_nil rfl rfl

/-- What is read of a fragment has the types of its parts for parameters. -/
theorem readWith_ok {parameter : Fragment → Except Stop TypeName} {f : Fragment} {e : TypeName}
    (h : readWith parameter f = .ok e) :
    ∃ c, cut f = .ok c ∧ Text.trimStart c.behind = [] ∧ e = c.form.withParams e.params ∧
      List.Forall₂ (fun part e => parameter part = .ok e) c.parts e.params := by
  rw [readWith_cut, bind_ok_iff] at h
  obtain ⟨c, hcut, h⟩ := h
  rw [Cut.read, bind_ok_iff] at h
  obtain ⟨⟨read, behind⟩, hread, h⟩ := h
  rw [bind_ok_iff] at hread
  obtain ⟨es, hes, hread⟩ := hread
  cases hread
  rw [mapM_ok_iff_forall₂] at hes
  have hparams := cut_fits hcut es hes.length_eq.symm
  dsimp only at h
  rw [finish] at h
  split at h
  · next hbehind =>
    cases h
    exact ⟨c, hcut, hbehind, by rw [hparams], by rwa [hparams]⟩
  · cases h

end Cql.TypeName
