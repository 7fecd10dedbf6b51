import Cql.Proofs.WireRoundTrip
import Mathlib.Data.List.Zip

/-!
Types grow at the end: user types gain fields behind those they have, tuples gain components. Values
that were stored before are read with the new ones absent, and those that are stored afterwards are
still read where the old type is in use, without the new ones. This holds wherever such a type stands
inside another one, although the collections around it count and measure every byte.
-/

namespace Cql

namespace ColumnType

/-- The type `new` is the type `old` but for what was appended: fields behind those of user types, and
components behind those of tuples, at any depth. -/
inductive Extends : (old new : ColumnType) → Prop where
  | native (type : NativeType) : Extends (.native type) (.native type)
  | list {old new : ColumnType} {frozen frozen' : Bool} :
    Extends old new → Extends (.list old frozen) (.list new frozen')
  | set {old new : ColumnType} {frozen frozen' : Bool} :
    Extends old new → Extends (.set old frozen) (.set new frozen')
  | map {key key' value value' : ColumnType} {frozen frozen' : Bool} :
    Extends key key' → Extends value value' → Extends (.map key value frozen) (.map key' value' frozen')
  | tuple {olds news : List ColumnType} : olds.length ≤ news.length →
    (∀ p ∈ olds.zip news, Extends p.1 p.2) → Extends (.tuple olds) (.tuple news)
  | userDefined {old new : UserType} {frozen frozen' : Bool} : old.fieldNames <+: new.fieldNames →
    (∀ p ∈ (old.fields.map (·.2)).zip (new.fields.map (·.2)), Extends p.1 p.2) →
      Extends (.userDefined old frozen) (.userDefined new frozen')
  | custom (name : String) : Extends (.custom name) (.custom name)
  | empty : Extends .empty .empty

/-- The types agree where both have something, so that either may be longer in any place. -/
inductive Aligned : (written read : ColumnType) → Prop where
  | native (type : NativeType) : Aligned (.native type) (.native type)
  | list {s t : ColumnType} {frozen frozen' : Bool} :
    Aligned s t → Aligned (.list s frozen) (.list t frozen')
  | set {s t : ColumnType} {frozen frozen' : Bool} :
    Aligned s t → Aligned (.set s frozen) (.set t frozen')
  | map {key key' value value' : ColumnType} {frozen frozen' : Bool} :
    Aligned key key' → Aligned value value' → Aligned (.map key value frozen) (.map key' value' frozen')
  | tuple {ss ts : List ColumnType} :
    (∀ p ∈ ss.zip ts, Aligned p.1 p.2) → Aligned (.tuple ss) (.tuple ts)
  | userDefined {s t : UserType} {frozen frozen' : Bool} :
    (∀ p ∈ s.fieldNames.zip t.fieldNames, p.1 = p.2) →
    (∀ p ∈ (s.fields.map (·.2)).zip (t.fields.map (·.2)), Aligned p.1 p.2) →
      Aligned (.userDefined s frozen) (.userDefined t frozen')
  | custom (name : String) : Aligned (.custom name) (.custom name)
  | empty : Aligned .empty .empty

end ColumnType

/-! ## Values between two types -/

mutual

/-- A value of one type as it stands in another one that it is aligned with: components and fields that
only the second type has are absent, and those that only the first one has are dropped. -/
def ColumnType.adapt : (written read : ColumnType) → Value → Value
  | .list s _, .list t _, .list items => .list (items.map (s.adapt t))
  | .set s _, .set t _, .set items => .set (items.map (s.adapt t))
  | .map key value _, .map key' value' _, .map entries =>
    .map (entries.map fun (k, v) => (key.adapt key' k, value.adapt value' v))
  | .tuple ss, .tuple ts, .tuple items => .tuple (ColumnType.adaptItems ss ts items)
  | .userDefined s _, .userDefined t _, .userDefined _ _ fields =>
    .userDefined t.keyspace t.name (s.adaptFields t fields)
  | _, _, v => v
termination_by structural _ t => t

def ColumnType.adaptItems :
    List ColumnType → List ColumnType → List (Option Value) → List (Option Value)
  | _, [], _ => []
  | [], _ :: ts, _ => none :: ColumnType.adaptItems [] ts []
  | s :: ss, t :: ts, items =>
    items.head?.join.map (s.adapt t) :: ColumnType.adaptItems ss ts items.tail
termination_by structural _ ts => ts

/-- Fields stay under the names they were written with. -/
def UserType.adaptFields :
    UserType → UserType → List (String × Option Value) → List (String × Option Value)
  | ⟨_, _, ss⟩, ⟨_, _, ts⟩, fields => UserType.adaptFieldsOf ss ts fields
termination_by structural _ t => t

def UserType.adaptFieldsOf :
    List (String × ColumnType) → List (String × ColumnType) → List (String × Option Value) →
      List (String × Option Value)
  | _, [], _ => []
  | [], (name, _) :: ts, _ => (name, none) :: UserType.adaptFieldsOf [] ts []
  | (name, s) :: ss, (_, t) :: ts, fields =>
    (name, (fields.head?.bind (·.2)).map (s.adapt t)) :: UserType.adaptFieldsOf ss ts fields.tail
termination_by structural _ ts => ts

end

namespace ColumnType

theorem eq_of_mem_zip {names more : List String} (h : names <+: more) :
    ∀ p ∈ names.zip more, p.1 = p.2 := by
  obtain ⟨added, rfl⟩ := h
  intro p hp
  obtain ⟨i, hi⟩ := List.getElem?_of_mem hp
  obtain ⟨hfirst, hsecond⟩ := List.getElem?_zip_eq_some.1 hi
  rw [List.getElem?_append_left (List.getElem?_eq_some_iff.1 hfirst).1] at hsecond
  exact Option.some.inj (hfirst.symm.trans hsecond)

theorem swap_mem_zip {α β : Type} {xs : List α} {ys : List β} {p : β × α} (h : p ∈ ys.zip xs) :
    p.swap ∈ xs.zip ys := by
  rw [← List.zip_swap xs ys] at h
  obtain ⟨q, hq, rfl⟩ := List.mem_map.1 h
  rwa [Prod.swap_swap]

theorem Extends.aligned {old new : ColumnType} (h : old.Extends new) : old.Aligned new := by
  induction h with
  | native type => exact .native type
  | list _ ih => exact .list ih
  | set _ ih => exact .set ih
  | map _ _ ihk ihv => exact .map ihk ihv
  | tuple _ _ ih => exact .tuple ih
  | userDefined hnames _ ih => exact .userDefined (eq_of_mem_zip hnames) ih
  | custom name => exact .custom name
  | empty => exact .empty

theorem Aligned.symm {s t : ColumnType} (h : s.Aligned t) : t.Aligned s := by
  induction h with
  | native type => exact .native type
  | list _ ih => exact .list ih
  | set _ ih => exact .set ih
  | map _ _ ihk ihv => exact .map ihk ihv
  | tuple _ ih => exact .tuple fun p hp => ih p.swap (swap_mem_zip hp)
  | userDefined hnames _ ih =>
    exact .userDefined (fun p hp => (hnames p.swap (swap_mem_zip hp)).symm)
      fun p hp => ih p.swap (swap_mem_zip hp)
  | custom name => exact .custom name
  | empty => exact .empty

/-- What is written of components of one type and read as those of another one. -/
theorem carriedItems_adapt (ss ts : List ColumnType) (items : List (Option Value)) :
    Component.carriedItems (fun s t v => s.adapt t (s.canonical v)) ss ts items =
      adaptItems ss ts (canonicalItems ss items) := by
  induction ts generalizing ss items with
  | nil => rw [Component.carriedItems, adaptItems]
  | cons t ts ih =>
    cases ss with
    | nil => rw [Component.carriedItems, adaptItems, ih, canonicalItems]
    | cons s ss =>
      rw [Component.carriedItems, ih, canonicalItems, adaptItems]
      simp [Function.comp_def]

/-- Fields of one type and read as those of another one that has the same names in the same places. -/
theorem zip_carriedItems {ss ts : List (String × ColumnType)}
    (hnames : ∀ p ∈ (ss.map (·.1)).zip (ts.map (·.1)), p.1 = p.2)
    (fields : List (String × Option Value)) :
    (ts.map (·.1)).zip (Component.carriedItems (fun s t v => s.adapt t (s.canonical v))
        (ss.map (·.2)) (ts.map (·.2)) ((ss.map (·.1)).map (UserType.fieldValue fields))) =
      UserType.adaptFieldsOf ss ts (UserType.canonicalFieldsOf ss fields) := by
  induction ts generalizing ss with
  | nil => rw [UserType.adaptFieldsOf]; rfl
  | cons t ts ih =>
    cases ss with
    | nil =>
      have hrest := @ih [] (fun p hp => absurd hp (by simp))
      exact congrArg _ hrest
    | cons s ss =>
      obtain ⟨hname, hnames⟩ := List.forall_mem_cons.1 hnames
      have hsame : s.1 = t.1 := hname
      rw [UserType.canonicalFieldsOf, UserType.adaptFieldsOf, List.tail_cons, ← ih hnames]
      simp [Component.carriedItems, Function.comp_def, hsame]

theorem codec_carries {s t : ColumnType} (h : s.Aligned t) :
    s.codec.Carries t.codec fun v => s.adapt t (s.canonical v) := by
  induction h with
  | native type =>
    have hsame : (fun v => (ColumnType.native type).adapt (.native type) ((ColumnType.native type).canonical v)) =
        type.canonical := by
      funext v
      rw [adapt, canonical] <;> simp
    rw [hsame]
    exact Codec.ofNative_recovers type
  | list _ ih => exact Codec.list_carries ih (fun items => by simp [canonical, adapt]) _ _
  | set _ ih => exact Codec.set_carries ih (fun items => by simp [canonical, adapt]) _ _
  | map _ _ ihk ihv =>
    exact Codec.map_carries ihk ihv (fun entries => by simp [canonical, adapt]) _ _
  | tuple _ ih =>
    refine Codec.tuple_carries (fun s t v => s.adapt t (s.canonical v)) ih fun items => ?_
    rw [carriedItems_adapt, canonical, adapt]
  | @userDefined s t _ _ hnames _ ih =>
    refine Codec.userDefined_carries (fun s t v => s.adapt t (s.canonical v)) ih
      fun keyspace name fields => ?_
    obtain ⟨_, _, ss⟩ := s
    obtain ⟨_, _, ts⟩ := t
    rw [canonical, adapt]
    exact congrArg (Value.userDefined _ _) (zip_carriedItems hnames fields).symm
  | custom name => exact Codec.rawBytes_carries _ _ fun bytes => rfl
  | empty => exact Codec.rawBytes_carries _ _ fun bytes => rfl

/-! ## Values that survive -/

/-- Where a type has grown, what was stored before is read with everything that was appended absent, and
what is stored since is read by the old type without it. -/
theorem appended_fields_survive {old new : ColumnType} (h : old.Extends new) (version : Version) :
    (∀ v bytes, old.codec.encode version v = .ok bytes →
      new.codec.decode version bytes = .ok (some (old.adapt new (old.canonical v)))) ∧
    (∀ v bytes, new.codec.encode version v = .ok bytes →
      old.codec.decode version bytes = .ok (some (new.adapt old (new.canonical v)))) :=
  ⟨codec_carries h.aligned version, codec_carries h.aligned.symm version⟩

/-- The keys of a map are tuples that gain a component, and its values lists of a user type that gains
a field. -/
theorem appended_fields_survive_nested :
    let old : ColumnType := .map (.tuple [.native .boolean])
      (.list (.userDefined ⟨"ks", "point", [("x", .native .tinyint)]⟩ true) false) false
    let new : ColumnType := .map (.tuple [.native .boolean, .native .int])
      (.list (.userDefined ⟨"ks", "point", [("x", .native .tinyint), ("y", .native .text)]⟩ true)
        false) false
    let before : Bytes := [0, 0, 0, 1, 0, 0, 0, 5, 0, 0, 0, 1, 1,
      0, 0, 0, 13, 0, 0, 0, 1, 0, 0, 0, 5, 0, 0, 0, 1, 7]
    let since : Bytes := [0, 0, 0, 1, 0, 0, 0, 9, 0, 0, 0, 1, 0, 255, 255, 255, 255,
      0, 0, 0, 18, 0, 0, 0, 1, 0, 0, 0, 10, 0, 0, 0, 1, 8, 0, 0, 0, 1, 65]
    old.Extends new ∧
      new.codec.decode .v4 before = .ok (some (.map [(.tuple [some (.boolean true), none],
        .list [.userDefined "ks" "point" [("x", some (.tinyint 7)), ("y", none)]])])) ∧
      old.codec.decode .v4 since = .ok (some (.map [(.tuple [some (.boolean false)],
        .list [.userDefined "ks" "point" [("x", some (.tinyint 8))]])])) := by
  intro old new before since
  have h : old.Extends new := by
    refine .map (.tuple (by decide) ?_) (.list (.userDefined ⟨["y"], rfl⟩ ?_))
    · simp [Extends.native]
    · simp [Extends.native]
  refine ⟨h, ?_, ?_⟩
  · exact (appended_fields_survive h .v4).1 (.map [(.tuple [some (.boolean true)],
      .list [.userDefined "" "" [("x", some (.tinyint 7))]])]) before (by rfl)
  · exact (appended_fields_survive h .v4).2 (.map [(.tuple [some (.boolean false)],
      .list [.userDefined "" "" [("y", some (.ascii "A")), ("x", some (.tinyint 8))]])]) since (by rfl)

end ColumnType

end Cql
