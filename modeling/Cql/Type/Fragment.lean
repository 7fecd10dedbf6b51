import Cql.Text.Scanner
import Cql.Type.Fault

/-!
Cutting the parameters of a type out of a text. Each parameter is a fragment that knows where it
stands in the input; what lies between its brackets is not looked at, only balanced. Between two
parameters there are blanks and at most one comma, and every parameter takes at least one character
together with the separator before it.
-/

namespace Cql

/-- A part of the input, and how many characters of the input stand before it. -/
structure Fragment where
  text : Text
  offset : Nat
  deriving DecidableEq, Repr

namespace Fragment

/-- The position in the input where a rest of the fragment starts. -/
def position (f : Fragment) (rest : Text) : Nat := f.offset + (f.text.length - rest.length) + 1

/-- The position behind the fragment. -/
def endPosition (f : Fragment) : Nat := f.offset + f.text.length + 1

/-- The part between two rests of the fragment. -/
def between (f : Fragment) (start rest : Text) : Fragment :=
  ⟨Scanner.consumed start rest, f.offset + (f.text.length - start.length)⟩

end Fragment

namespace TypeName

/-- A flaw at a position of the input. -/
structure Stop where
  position : Nat
  flaw : Flaw
  deriving DecidableEq, Repr

/-- The word a type starts with. A name between quotes is never a keyword. -/
inductive Head where
  | bare (name : Text)
  | quoted (name : Text)
  deriving DecidableEq, Repr

/-- Reads the name at the start of `t`, a rest of the fragment. -/
def readHead (f : Fragment) (t : Text) : Except Stop (Head × Text) :=
  if t.head? = some '"' then
    match Scanner.skipIdentifier t with
    | .error _ => .error ⟨f.endPosition, .endOfInput⟩
    | .ok (written, rest) =>
      let name := Identifier.undouble (written.drop 1).dropLast
      if name.isEmpty then .error ⟨f.position t, .missingName⟩ else .ok (.quoted name, rest)
  else
    let (name, rest) := Text.spanWhile Identifier.isNameChar t
    if name.isEmpty then .error ⟨f.position t, .missingName⟩ else .ok (.bare name, rest)

/-- Skips blanks with at most one comma among them. -/
def skipSeparator (t : Text) : Text :=
  match Text.trimStart t with
  | ',' :: rest => Text.trimStart rest
  | rest => rest

/-- The text after the bracket that closes the one before the text; `depth` brackets were opened since
and are still open. -/
def afterBrackets (depth : Nat) : Text → Option Text
  | [] => none
  | c :: rest =>
    if c = '<' then afterBrackets (depth + 1) rest
    else if c = '>' then
      match depth with
      | 0 => some rest
      | depth + 1 => afterBrackets depth rest
    else afterBrackets depth rest

/-- Skips the name of a parameter. A name that is missing is told of when the parameter is read. -/
def skipHead (f : Fragment) (t : Text) : Except Stop Text :=
  match readHead f t with
  | .ok (_, rest) => .ok rest
  | .error stop => if stop.flaw = .missingName then .ok t else .error stop

/-- Skips the arguments of a parameter, brackets and all, if it has any. -/
def skipArguments (f : Fragment) (t : Text) : Except Stop Text :=
  match Text.trimStart t with
  | [] => .ok []
  | c :: rest =>
    if c = '<' then
      match afterBrackets 0 rest with
      | some rest => .ok rest
      | none => .error ⟨f.position (c :: rest), .openBrackets⟩
    else if c = '>' ∨ c = ',' then .ok (c :: rest)
    else .error ⟨f.position (c :: rest), .unexpected c .opening⟩

theorem trimStart_skipSeparator (t : Text) : Text.trimStart (skipSeparator t) = skipSeparator t := by
  unfold skipSeparator
  split <;> exact Text.trimStart_trimStart _

theorem length_skipSeparator_le (t : Text) : (skipSeparator t).length ≤ t.length := by
  have h := Text.length_trimStart_le t
  unfold skipSeparator
  split
  · rename_i rest ht
    have := Text.length_trimStart_le rest
    rw [ht, List.length_cons] at h
    omega
  · exact h

/-- A comma behind a separator is the second one. -/
theorem length_skipSeparator_lt {t rest : Text} (h : skipSeparator t = ',' :: rest) :
    (skipSeparator t).length < t.length := by
  have ht := Text.length_trimStart_le t
  unfold skipSeparator at h ⊢
  split
  · rename_i rest ht'
    have := Text.length_trimStart_le rest
    rw [ht', List.length_cons] at ht
    omega
  · rename_i hne
    split at h
    · rename_i ht'
      exact absurd ht' (hne _)
    · exact absurd h (hne _)

theorem length_afterBrackets_lt {depth : Nat} {t rest : Text} (h : afterBrackets depth t = some rest) :
    rest.length < t.length := by
  fun_induction afterBrackets depth t <;> grind

theorem length_readHead_lt {f : Fragment} {t rest : Text} {head : Head}
    (h : readHead f t = .ok (head, rest)) : rest.length < t.length := by
  unfold readHead at h
  split at h
  · split at h
    · simp at h
    · rename_i hs
      dsimp only at h
      split at h
      · simp at h
      · simp only [Except.ok.injEq, Prod.mk.injEq] at h
        obtain ⟨_, rfl⟩ := h
        exact Scanner.skipIdentifier_length_lt hs
  · have hs := congrArg List.length
      (List.takeWhile_append_dropWhile (p := Identifier.isNameChar) (l := t))
    rw [List.length_append] at hs
    cases hname : t.takeWhile Identifier.isNameChar with
    | nil => simp [Text.spanWhile, hname] at h
    | cons c cs =>
      simp only [Text.spanWhile, hname, List.isEmpty_cons, Bool.false_eq_true, ↓reduceIte,
        Except.ok.injEq, Prod.mk.injEq] at h
      obtain ⟨_, rfl⟩ := h
      rw [hname, List.length_cons] at hs
      omega

theorem skipHead_eq_or_lt {f : Fragment} {t rest : Text} (h : skipHead f t = .ok rest) :
    rest = t ∨ rest.length < t.length := by
  unfold skipHead at h
  split at h
  · rename_i hr
    simp only [Except.ok.injEq] at h
    subst h
    exact .inr (length_readHead_lt hr)
  · split at h
    · simp only [Except.ok.injEq] at h
      exact .inl h.symm
    · simp at h

theorem skipArguments_le {f : Fragment} {t rest : Text} (h : skipArguments f t = .ok rest) :
    rest.length ≤ t.length := by
  have ht := Text.length_trimStart_le t
  unfold skipArguments at h
  split at h
  · simp only [Except.ok.injEq] at h
    simp [← h]
  · rename_i heq
    rw [heq, List.length_cons] at ht
    split at h
    · split at h
      · rename_i hb
        simp only [Except.ok.injEq] at h
        subst h
        have := length_afterBrackets_lt hb
        omega
      · simp at h
    · split at h
      · simp only [Except.ok.injEq] at h
        subst h
        simpa using ht
      · simp at h

/-- Where arguments do not start with a bracket they end the parameter at once. -/
theorem skipArguments_eq_or_lt {f : Fragment} {t rest : Text} (h : skipArguments f t = .ok rest)
    (htrim : Text.trimStart t = t) :
    rest.length < t.length ∨ t = [] ∨ (∃ r, t = '>' :: r) ∨ ∃ r, t = ',' :: r := by
  unfold skipArguments at h
  rw [htrim] at h
  split at h
  · exact .inr (.inl rfl)
  · rename_i c r
    split at h
    · split at h
      · rename_i hb
        simp only [Except.ok.injEq] at h
        subst h
        have := length_afterBrackets_lt hb
        exact .inl (by simp only [List.length_cons]; omega)
      · simp at h
    · split at h
      · rename_i hc
        rcases hc with rfl | rfl
        · exact .inr (.inr (.inl ⟨r, rfl⟩))
        · exact .inr (.inr (.inr ⟨r, rfl⟩))
      · simp at h

/-- What a parameter takes, together with the separator before it. -/
theorem length_parameter_lt {f : Fragment} {t after rest : Text}
    (hne : skipSeparator t ≠ []) (hclose : ∀ r, skipSeparator t ≠ '>' :: r)
    (hhead : skipHead f (skipSeparator t) = .ok after) (hargs : skipArguments f after = .ok rest) :
    rest.length < t.length := by
  have hle := length_skipSeparator_le t
  rcases skipHead_eq_or_lt hhead with rfl | hlt
  · rcases skipArguments_eq_or_lt hargs (trimStart_skipSeparator t) with h | h | ⟨r, h⟩ | ⟨r, h⟩
    · omega
    · exact absurd h hne
    · exact absurd h (hclose r)
    · have := length_skipSeparator_lt h
      have := skipArguments_le hargs
      omega
  · have := skipArguments_le hargs
    omega

/-- Cuts out parameters up to the closing bracket, and answers the text behind it. -/
def parametersFrom (f : Fragment) (t : Text) : Except Stop (List Fragment × Text) :=
  match hnext : skipSeparator t with
  | [] => .error ⟨f.endPosition, .endOfInput⟩
  | c :: next =>
    if hc : c = '>' then .ok ([], next)
    else
      match hhead : skipHead f (c :: next) with
      | .error stop => .error stop
      | .ok after =>
        match hargs : skipArguments f after with
        | .error stop => .error stop
        | .ok rest => do
          have : rest.length < t.length :=
            length_parameter_lt (by simp [hnext])
              (by intro r h; rw [hnext, List.cons.injEq] at h; exact hc h.1)
              (by rw [hnext]; exact hhead) hargs
          let (parameters, behind) ← parametersFrom f rest
          .ok (f.between (c :: next) rest :: parameters, behind)
termination_by t.length

/-- The parameters of a type whose name ends before `t`, and the text behind them. -/
def parameters (f : Fragment) (t : Text) : Except Stop (List Fragment × Text) :=
  match skipSeparator t with
  | [] => .ok ([], [])
  | c :: rest =>
    if c = '<' then parametersFrom f rest else .error ⟨f.position (c :: rest), .unexpected c .opening⟩

end TypeName

end Cql
