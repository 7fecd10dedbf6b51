import Cql.Proofs.TypeParts
import Cql.Proofs.TypeReferences

/-!
Freezing before and after. A pass that is told to freeze hands this down to the type it reaches first
and forgets it inside of collections; freezing the type at the end comes to the same.
-/

namespace Cql

/-! ## Frozen types -/

namespace ColumnType

theorem frozen_frozen (t : ColumnType) : t.frozen.frozen = t.frozen := by
  cases t <;> rfl

/-- Freezing reaches the outermost type only. -/
theorem inner_frozen (t : ColumnType) : t.frozen.inner = t.inner := by
  cases t <;> rfl

theorem frozen_eq_self {t : ColumnType} (h : t.supportsFreezing = false) : t.frozen = t := by
  cases t with
  | native _ | tuple _ | custom _ | empty => rfl
  | list _ _ | set _ _ | map _ _ _ | userDefined _ _ => cases h

/-- Tuples are frozen as they are. -/
theorem Arranging.frozen_eq_self {makeTuple : List ColumnType → ColumnType}
    (h : Arranging makeTuple) (elements : List ColumnType) :
    (makeTuple elements).frozen = makeTuple elements := by
  obtain ⟨arranged, -, harranged⟩ := h elements
  rw [harranged]
  rfl

end ColumnType

/-! ## Resolving to a frozen type -/

namespace TypeName

variable {scope : TypeScope} (keyspace : String)

/-- Only the outermost type depends on whether it is to be frozen. A wrapper is frozen either way, and
there one freezing more changes nothing. -/
theorem resolve_true (htuple : ColumnType.Arranging scope.makeTuple) (e : TypeName) :
    e.resolve scope keyspace true =
      ⟨(e.resolve scope keyspace false).type.frozen, (e.resolve scope keyspace false).missing⟩ := by
  induction e with
  | native type => rfl
  | empty => rfl
  | list element _ => rfl
  | set element _ => rfl
  | map key value _ _ => rfl
  | frozen inner ih =>
    show inner.resolve scope keyspace true = ⟨(inner.resolve scope keyspace true).type.frozen,
      (inner.resolve scope keyspace true).missing⟩
    rw [ih]
    dsimp only
    rw [ColumnType.frozen_frozen]
  | tuple elements _ =>
    rw [resolve, resolve]
    dsimp only
    rw [htuple.frozen_eq_self]
  | user name =>
    rw [resolve, resolve]
    cases scope.userType? keyspace name <;> rfl

end TypeName

/-- A text either fails to be a type at the same flaw, frozen or not, or the frozen type is the other
one frozen at the end, with the same names missing. What is inside stays, and so do the fields of a user
type; a type that cannot be frozen stays altogether, and so does one whose text is a frozen wrapper. -/
theorem TypePass.parse_frozen (limit : Nat) (scope : TypeScope)
    (htuple : ColumnType.Arranging scope.makeTuple) (keyspace : String) (input : Text) :
    (∃ fault, parse limit scope keyspace true input = .error fault ∧
      parse limit scope keyspace false input = .error fault) ∨
    ∃ frozen plain, parse limit scope keyspace true input = .ok frozen ∧
      parse limit scope keyspace false input = .ok plain ∧
      frozen.missing = plain.missing ∧ frozen.isComplete = plain.isComplete ∧
      frozen.type = plain.type.frozen ∧ frozen.type.inner = plain.type.inner ∧
      (∀ definition given, plain.type = .userDefined definition given →
        frozen.type = .userDefined definition true) ∧
      (plain.type.supportsFreezing = false → frozen.type = plain.type) ∧
      (∀ inner, TypeName.read limit input = .ok (.frozen inner) → frozen = plain) := by
  rw [parse_eq, parse_eq]
  cases TypeName.read limit input with
  | error fault => exact .inl ⟨fault, rfl, rfl⟩
  | ok e =>
    have hresolve := e.resolve_true keyspace htuple
    generalize hfrozen : e.resolve scope keyspace true = frozen at hresolve
    generalize hplain : e.resolve scope keyspace false = plain at hresolve
    subst hresolve
    refine .inr ⟨_, plain, congrArg Except.ok hfrozen, congrArg Except.ok hplain, rfl, rfl, rfl,
      ColumnType.inner_frozen _, ?_, ColumnType.frozen_eq_self, ?_⟩
    · intro definition given hdefinition
      exact congrArg ColumnType.frozen hdefinition
    · intro inner hwrapper
      cases hwrapper
      -- both flags reach the same type inside of the wrapper
      have hwhole : (TypeName.frozen inner).resolve scope keyspace true =
          (TypeName.frozen inner).resolve scope keyspace false := by
        rw [TypeName.resolve, TypeName.resolve]
      rw [← hfrozen, hwhole, hplain]

/-- Freezing reaches neither the lists inside nor a second time what is wrapped, also where tuples are
put together in reverse. -/
theorem TypePass.parse_frozen_nested :
    ∃ frozen plain,
      parse 64 .reversing "ks" true "map<a, frozen<tuple<int, list<text>>>>".toList = .ok frozen ∧
      parse 64 .reversing "ks" false "map<a, frozen<tuple<int, list<text>>>>".toList = .ok plain ∧
      plain = ⟨.map (.custom "a") (.tuple [.list (.native .text) false, .native .int]) false, ["a"]⟩ ∧
      frozen = ⟨.map (.custom "a") (.tuple [.list (.native .text) false, .native .int]) true, ["a"]⟩ := by
  have hparse : parse 64 .reversing "ks" false "map<a, frozen<tuple<int, list<text>>>>".toList =
      .ok ⟨.map (.custom "a") (.tuple [.list (.native .text) false, .native .int]) false, ["a"]⟩ := by
    decide +kernel
  rcases parse_frozen 64 .reversing .reversing "ks" "map<a, frozen<tuple<int, list<text>>>>".toList with
    ⟨fault, -, hfault⟩ | ⟨frozen, plain, hfrozen, hplain, hmissing, -, htype, -⟩
  · rw [hparse] at hfault
    cases hfault
  · rw [hparse] at hplain
    cases hplain
    refine ⟨frozen, _, hfrozen, hparse, rfl, ?_⟩
    obtain ⟨type, missing⟩ := frozen
    rw [show type = _ from htype, show missing = _ from hmissing]
    rfl

end Cql
