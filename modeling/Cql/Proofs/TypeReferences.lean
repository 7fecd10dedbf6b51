import Cql.Type.Pass
import Cql.Proofs.Sequences
import Cql.Proofs.TypeMeaning

/-!
What a text makes of a type does not depend on what is known. One pass that resolves names and one that
only collects them stop at the same flaw, or both come to the end; what is missing then is what was
mentioned, less the names that are known.
-/

namespace Cql

/-! ## Reading word by word -/

/-- The name of a type that starts with a word, and the text behind it. -/
def TypeName.readWord (parameter : Fragment → Except Stop TypeName) (f : Fragment) (start : Text) :
    Head → Text → Except Stop (TypeName × Text)
  | .quoted name, t => .ok (.user (String.ofList name), t)
  | .bare name, t =>
    match TypeKeyword.ofName? name with
    | some keyword => readKeyword parameter f keyword start t
    | none => .ok (.user (String.ofList name), t)

theorem TypeName.readWith_eq (parameter : Fragment → Except Stop TypeName) (f : Fragment) :
    readWith parameter f = (do
      let (word, t) ← readHead f (Text.trimStart f.text)
      let (type, t) ← readWord parameter f (Text.trimStart f.text) word t
      match Text.trimStart t with
      | [] => .ok type
      | c :: rest => .error ⟨f.position (c :: rest), .unexpected c .endOfType⟩) := by
  rw [readWith]
  cases readHead f (Text.trimStart f.text) with
  | error stop => rfl
  | ok head =>
    obtain ⟨word, t⟩ := head
    cases word with
    | quoted name => rfl
    | bare name =>
      simp only [ok_bind, readWord]
      cases TypeKeyword.ofName? name <;> rfl

namespace TypePass

/-! ## One pass -/

variable {α β : Type}

/-- A pass goes the way of a reader: where the reader stops it stops, and what is read gives the answer
of the pass and the names that it notes down on the way. -/
def Follows (step : Work β) (x : Except TypeName.Stop α) (answer : α → β) (names : α → List String) :
    Prop :=
  ∀ noted, step.run noted = x.map fun a => (answer a, noted ++ names a)

/-- Work on the text alone notes nothing down. -/
theorem run_liftM_bind (x : Except TypeName.Stop α) (next : α → Work β) (noted : List String) :
    (liftM x >>= next).run noted = x >>= fun a => (next a).run noted := by
  cases x <;> rfl

/-- The scope that a pass goes by. -/
def known (p : TypePass) : TypeScope :=
  { p.scope with userType? := fun keyspace name =>
      if p.resolves then p.scope.userType? keyspace name else none }

/-- What a name of a type is resolved to. -/
def meaning (p : TypePass) (frozen : Bool) (e : TypeName) : ResolvedType :=
  e.resolve p.known p.keyspace frozen

variable (p : TypePass)

/-- A pass over a part of the input answers what the name that is read there is resolved to. -/
def Resolves (step : Work ColumnType) (x : Except TypeName.Stop TypeName) (frozen : Bool) : Prop :=
  Follows step x (fun e => (p.meaning frozen e).type) fun e => (p.meaning frozen e).missing

/-- The same in front of the rest of a text. -/
def ResolvesHead (step : Work (ColumnType × Text)) (x : Except TypeName.Stop (TypeName × Text))
    (frozen : Bool) : Prop :=
  Follows step x (fun e => ((p.meaning frozen e.1).type, e.2)) fun e => (p.meaning frozen e.1).missing

variable {p}

theorem userType_resolves (name : String) (frozen : Bool) :
    p.Resolves (p.userType name frozen) (.ok (.user name)) frozen := by
  intro noted
  cases hp : p.resolves with
  | false => simp [userType, hp, meaning, TypeName.resolve, known, placeholder]
  | true =>
    cases hname : p.scope.userType? p.keyspace name with
    | none => simp [userType, hp, hname, meaning, TypeName.resolve, known, placeholder]
    | some definition => simp [userType, hp, hname, meaning, TypeName.resolve, known]

theorem head_user (name : String) (frozen : Bool) (t : Text) :
    p.ResolvesHead (do return (← p.userType name frozen, t)) (.ok (.user name, t)) frozen := by
  intro noted
  rw [StateT.run_bind, userType_resolves]
  rfl

section Parameters

variable {parameter : Fragment → Bool → Work ColumnType}
  {read : Fragment → Except TypeName.Stop TypeName}
  (hparameter : ∀ f frozen, p.Resolves (parameter f frozen) (read f) frozen)

include hparameter

theorem mapM_resolves (fragments : List Fragment) :
    Follows (fragments.mapM fun f => parameter f false) (fragments.mapM read)
      (fun es => (TypeName.resolveAll p.known p.keyspace es).1)
      fun es => (TypeName.resolveAll p.known p.keyspace es).2 := by
  induction fragments with
  | nil =>
    intro noted
    simp [TypeName.resolveAll]
  | cons f fragments ih =>
    intro noted
    rw [List.mapM_cons, List.mapM_cons, StateT.run_bind, hparameter f false noted]
    cases read f with
    | error stop => rfl
    | ok e =>
      rw [map_ok, ok_bind, StateT.run_bind, ih, ok_bind]
      cases fragments.mapM read with
      | error stop => rfl
      | ok es => simp [TypeName.resolveAll, meaning]

/-- A keyword in front of one parameter, which it passes `inner` on to. -/
theorem one_resolves {name : TypeName → TypeName} {type : ColumnType → ColumnType}
    {inner frozen : Bool}
    (hname : ∀ e, p.meaning frozen (name e) =
      ⟨type (p.meaning inner e).type, (p.meaning inner e).missing⟩)
    (part : Except TypeName.Stop (Fragment × Text)) :
    p.ResolvesHead
      (liftM part >>= fun q => parameter q.1 inner >>= fun element => pure (type element, q.2))
      (part >>= fun q => read q.1 >>= fun e => .ok (name e, q.2)) frozen := by
  intro noted
  rw [run_liftM_bind]
  cases part with
  | error stop => rfl
  | ok q =>
    rw [ok_bind, ok_bind, StateT.run_bind, hparameter]
    cases read q.1 with
    | error stop => rfl
    | ok e => simp [hname]

theorem keyword_resolves (f : Fragment) (k : TypeKeyword) (start t : Text) (frozen : Bool) :
    p.ResolvesHead (p.keyword parameter f k start t frozen) (TypeName.readKeyword read f k start t)
      frozen := by
  cases k with
  | native type =>
    intro noted
    simp [keyword, TypeName.readKeyword, meaning, TypeName.resolve]
  | empty =>
    intro noted
    simp [keyword, TypeName.readKeyword, meaning, TypeName.resolve]
  | list => exact one_resolves hparameter (fun e => by rw [meaning, TypeName.resolve]; rfl) _
  | set => exact one_resolves hparameter (fun e => by rw [meaning, TypeName.resolve]; rfl) _
  | frozen => exact one_resolves hparameter (fun e => by rw [meaning, TypeName.resolve]; rfl) _
  | map =>
    intro noted
    rw [keyword, TypeName.readKeyword, run_liftM_bind]
    cases TypeName.twoParameters f .map start t with
    | error stop => rfl
    | ok parts =>
      obtain ⟨key, value, rest⟩ := parts
      rw [ok_bind, ok_bind]
      dsimp only
      rw [StateT.run_bind, hparameter]
      cases read key with
      | error stop => rfl
      | ok k =>
        rw [map_ok, ok_bind, ok_bind, StateT.run_bind, hparameter]
        cases read value with
        | error stop => rfl
        | ok v => simp [meaning, TypeName.resolve]
  | tuple =>
    intro noted
    rw [keyword, TypeName.readKeyword, run_liftM_bind]
    cases TypeName.parameters f t with
    | error stop => rfl
    | ok parts =>
      obtain ⟨elements, rest⟩ := parts
      rw [ok_bind, ok_bind]
      dsimp only
      rw [StateT.run_bind, mapM_resolves hparameter]
      cases elements.mapM read with
      | error stop => rfl
      | ok es => simp [meaning, TypeName.resolve, known]

theorem head_resolves (f : Fragment) (start t : Text) (word : TypeName.Head) (frozen : Bool) :
    p.ResolvesHead (p.head parameter f start frozen word t) (TypeName.readWord read f start word t)
      frozen := by
  cases word with
  | quoted name => exact head_user _ frozen t
  | bare name =>
    rw [head, TypeName.readWord]
    cases TypeKeyword.ofName? name with
    | some k => exact keyword_resolves hparameter f k start t frozen
    | none => exact head_user _ frozen t

theorem whole_resolves (f : Fragment) (frozen : Bool) :
    p.Resolves (p.whole parameter f frozen) (TypeName.readWith read f) frozen := by
  intro noted
  rw [whole, TypeName.readWith_eq, run_liftM_bind]
  cases TypeName.readHead f (Text.trimStart f.text) with
  | error stop => rfl
  | ok head =>
    obtain ⟨word, t⟩ := head
    rw [ok_bind, ok_bind]
    dsimp only
    rw [StateT.run_bind, head_resolves hparameter f _ t word frozen noted]
    cases TypeName.readWord read f (Text.trimStart f.text) word t with
    | error stop => rfl
    | ok found =>
      obtain ⟨e, rest⟩ := found
      rw [map_ok, ok_bind, ok_bind]
      dsimp only
      cases Text.trimStart rest <;> rfl

end Parameters

theorem level_resolves (levels : Nat) (f : Fragment) (frozen : Bool) :
    p.Resolves (p.level levels f frozen) (TypeName.readLevel p.limit levels f) frozen := by
  induction levels generalizing f frozen with
  | zero =>
    have hdeep : ∀ (q : Fragment) (frozen : Bool),
        p.Resolves (throw ⟨q.offset + 1, .tooDeep p.limit⟩)
          (.error ⟨q.offset + 1, .tooDeep p.limit⟩) frozen := fun _ _ _ => rfl
    exact whole_resolves hdeep f frozen
  | succ levels ih =>
    rw [level, TypeName.readLevel]
    exact whole_resolves ih f frozen

/-- One pass does what reading and resolving do one after the other. -/
theorem run_eq (frozen : Bool) (input : Text) :
    p.run frozen input = (TypeName.read p.limit input).map (p.meaning frozen) := by
  rw [run, level_resolves, TypeName.read]
  cases TypeName.readLevel p.limit p.limit ⟨input, 0⟩ <;> rfl

end TypePass

section Outcome

variable (limit : Nat)

theorem TypePass.parse_eq (scope : TypeScope) (keyspace : String) (frozen : Bool) (input : Text) :
    parse limit scope keyspace frozen input =
      (TypeName.read limit input).map fun e => e.resolve scope keyspace frozen :=
  run_eq frozen input

theorem TypePass.collect_eq (input : Text) :
    collect limit input = (TypeName.read limit input).map TypeName.references := by
  rw [collect, run_eq]
  show ((TypeName.read limit input).map _).map _ = _
  cases TypeName.read limit input with
  | error fault => rfl
  | ok e =>
    have hall := e.missing_resolve TypeScope.none "" false
    exact congrArg Except.ok (hall.trans (List.filter_eq_self.2 fun _ _ => rfl))

end Outcome

/-! ## Placeholders -/

mutual

/-- The names of the placeholders in a type from left to right, without those inside definitions. -/
def ColumnType.placeholders : ColumnType → List String
  | .native _ | .userDefined .. | .empty => []
  | .list element _ | .set element _ => element.placeholders
  | .map key value _ => key.placeholders ++ value.placeholders
  | .tuple elements => ColumnType.placeholdersOfAll elements
  | .custom name => [name]

def ColumnType.placeholdersOfAll : List ColumnType → List String
  | [] => []
  | t :: ts => t.placeholders ++ ColumnType.placeholdersOfAll ts

end

theorem ColumnType.placeholdersOfAll_eq (ts : List ColumnType) :
    placeholdersOfAll ts = ts.flatMap placeholders := by
  induction ts with
  | nil => rfl
  | cons t ts ih => rw [placeholdersOfAll, ih, List.flatMap_cons]

/-- A placeholder stands for each name that is missing. -/
theorem TypeName.placeholders_resolve {scope : TypeScope} (hstandard : scope.makeTuple = .tuple)
    (keyspace : String) (e : TypeName) (frozen : Bool) :
    (e.resolve scope keyspace frozen).type.placeholders = (e.resolve scope keyspace frozen).missing := by
  induction e generalizing frozen with
  | native type => rfl
  | empty => rfl
  | list element ih => exact ih false
  | set element ih => exact ih false
  | map key value ihk ihv =>
    rw [resolve, ColumnType.placeholders]
    dsimp only
    rw [ihk, ihv]
  | frozen inner ih => exact ih true
  | tuple elements ih =>
    rw [resolve, resolveAll_eq, hstandard]
    dsimp only
    rw [ColumnType.placeholders, ColumnType.placeholdersOfAll_eq, List.flatMap_map, List.flatMap_def,
      List.flatMap_def, List.map_congr_left fun e he => ih e he false]
  | user name =>
    rw [resolve]
    cases scope.userType? keyspace name <;> rfl

/-- Whatever is known, a text either stops resolving and collecting at the same flaw, or both come to
the end. What is missing then are the names that were collected, in order and as often, without those
that are known; where tuples are put together as they stand, these are the placeholders of the type, and
it is complete exactly if there are none. -/
theorem TypePass.parse_agrees_collect (limit : Nat) (scope : TypeScope) (keyspace : String)
    (frozen : Bool) (input : Text) :
    (∃ fault, parse limit scope keyspace frozen input = .error fault ∧
      collect limit input = .error fault) ∨
    ∃ resolved names, parse limit scope keyspace frozen input = .ok resolved ∧
      collect limit input = .ok names ∧
      resolved.missing = names.filter (fun name => (scope.userType? keyspace name).isNone) ∧
      (scope.makeTuple = .tuple →
        resolved.missing = resolved.type.placeholders ∧
        (resolved.isComplete ↔ resolved.type.placeholders = [])) := by
  rw [parse_eq, collect_eq]
  cases TypeName.read limit input with
  | error fault => exact .inl ⟨fault, rfl, rfl⟩
  | ok e =>
    refine .inr ⟨e.resolve scope keyspace frozen, e.references, rfl, rfl,
      e.missing_resolve scope keyspace frozen, fun hstandard => ?_⟩
    have hplaceholders := e.placeholders_resolve hstandard keyspace frozen
    refine ⟨hplaceholders.symm, ?_⟩
    rw [hplaceholders, ResolvedType.isComplete, List.isEmpty_iff]

/-- One name is mentioned twice and not known, another one is known. -/
theorem TypePass.parse_agrees_collect_repeated :
    collect 64 "map<a, tuple<b, frozen<a>>>".toList = .ok ["a", "b", "a"] ∧
      ∃ resolved, parse 64 (.ofUserTypes [⟨"ks", "b", [("x", .native .int)]⟩]) "ks" false
          "map<a, tuple<b, frozen<a>>>".toList = .ok resolved ∧
        resolved.missing = ["a", "a"] ∧ resolved.type.placeholders = ["a", "a"] := by
  have hcollect : collect 64 "map<a, tuple<b, frozen<a>>>".toList = .ok ["a", "b", "a"] := by decide +kernel
  refine ⟨hcollect, ?_⟩
  rcases parse_agrees_collect 64 (.ofUserTypes [⟨"ks", "b", [("x", .native .int)]⟩]) "ks" false
      "map<a, tuple<b, frozen<a>>>".toList with
    ⟨fault, -, hfault⟩ | ⟨resolved, names, hparse, hnames, hmissing, hstandard⟩
  · rw [hcollect] at hfault
    cases hfault
  · rw [hcollect] at hnames
    cases hnames
    obtain ⟨hplaceholders, -⟩ := hstandard rfl
    exact ⟨resolved, hparse, hmissing, hplaceholders.symm.trans hmissing⟩

end Cql
