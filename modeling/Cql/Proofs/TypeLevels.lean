import Cql.Proofs.CutFlaws
import Cql.Proofs.TypeParts

/-!
What the limit of nested parameters does. Passes over one text with different limits go the same way up
to the first parameter that is too deep for one of them, and that is the only way in which a limit is
told of.
-/

namespace Cql

section Descendants

variable {α : Type} (next : α → List α)

/-- What lies so many steps below. -/
def descendants : Nat → α → List α
  | 0, a => [a]
  | n + 1, a => (next a).flatMap (descendants n)

theorem mem_descendants_succ {n : Nat} {a b : α} :
    b ∈ descendants next (n + 1) a ↔ ∃ c ∈ next a, b ∈ descendants next n c := by
  rw [descendants, List.mem_flatMap]

/-- Every chain of steps has at most so many of them. -/
def Within (levels : Nat) (a : α) : Prop := ∀ n b, b ∈ descendants next n a → n ≤ levels

theorem Within.mono {m n : Nat} {a : α} (h : Within next m a) (hle : m ≤ n) : Within next n a :=
  fun k b hb => Nat.le_trans (h k b hb) hle

/-- One level more than what is one step below. -/
theorem Within.succ {levels : Nat} {a : α} (h : ∀ c ∈ next a, Within next levels c) :
    Within next (levels + 1) a := by
  intro n b hb
  cases n with
  | zero => exact Nat.zero_le _
  | succ n =>
    obtain ⟨c, hc, hb⟩ := (mem_descendants_succ next).1 hb
    exact Nat.succ_le_succ (h c hc n b hb)

theorem Within.zero {a : α} (h : next a = []) (levels : Nat) : Within next levels a := by
  intro n b hb
  cases n with
  | zero => exact Nat.zero_le _
  | succ n =>
    rw [descendants, h] at hb
    cases hb

/-- Where nothing lies one step too deep, nothing lies deeper. -/
theorem Within.of_descendants {levels : Nat} {a : α} (h : descendants next (levels + 1) a = []) :
    Within next levels a := by
  induction levels generalizing a with
  | zero =>
    rw [descendants, List.flatMap_eq_nil_iff] at h
    refine .zero next (List.eq_nil_iff_forall_not_mem.2 fun c hc => ?_) 0
    cases h c hc
  | succ levels ih =>
    rw [descendants, List.flatMap_eq_nil_iff] at h
    exact .succ next fun c hc => ih (h c hc)

end Descendants

namespace TypeName

/-! ## Two limits -/

/-- The first outcome is the second one, unless parameters were nested too deep for it. -/
def Limited {α : Type} (limit : Nat) (x y : Except Stop α) : Prop :=
  x = y ∨ ∃ position, x = .error ⟨position, .tooDeep limit⟩

namespace Limited

variable {α β : Type} {limit : Nat}

theorem refl (x : Except Stop α) : Limited limit x x := .inl rfl

theorem bind {x y : Except Stop α} {next other : α → Except Stop β} (hx : Limited limit x y)
    (hnext : ∀ a, Limited limit (next a) (other a)) : Limited limit (x >>= next) (y >>= other) := by
  rcases hx with rfl | ⟨position, rfl⟩
  · cases x with
    | error stop => exact .refl _
    | ok a => exact hnext a
  · exact .inr ⟨position, rfl⟩

theorem mapM {f g : α → Except Stop β} (h : ∀ a, Limited limit (f a) (g a)) (as : List α) :
    Limited limit (as.mapM f) (as.mapM g) := by
  induction as with
  | nil => exact .refl _
  | cons a as ih =>
    rw [List.mapM_cons, List.mapM_cons]
    exact (h a).bind fun _ => ih.bind fun _ => .refl _

end Limited

theorem readWith_limited {limit : Nat} {parameter other : Fragment → Except Stop TypeName}
    (h : ∀ p, Limited limit (parameter p) (other p)) (f : Fragment) :
    Limited limit (readWith parameter f) (readWith other f) := by
  rw [readWith_cut, readWith_cut]
  refine (Limited.refl (cut f)).bind fun c => Limited.bind ?_ fun _ => .refl _
  exact (Limited.mapM h c.parts).bind fun _ => .refl _

/-! ## One level after the other -/

/-- The parameters of a fragment as they are cut out, if there are as many as its keyword takes. -/
def parts (f : Fragment) : List Fragment :=
  match cut f with
  | .ok c => c.parts
  | .error _ => []

/-- A fragment is not cut, a parameter of it is not read, or something stands behind them. -/
theorem readWith_error {parameter : Fragment → Except Stop TypeName} {f : Fragment} {stop : Stop}
    (h : readWith parameter f = .error stop) :
    cut f = .error stop ∨ (∃ p ∈ parts f, parameter p = .error stop) ∨
      ∃ c, stop.flaw = .unexpected c .endOfType := by
  rw [readWith_cut] at h
  rw [parts]
  cases hcut : cut f with
  | error found =>
    rw [hcut] at h
    cases h
    exact .inl rfl
  | ok c =>
    rw [hcut, ok_bind, Cut.read] at h
    cases hparts : c.parts.mapM parameter with
    | error found =>
      rw [hparts] at h
      cases h
      exact .inr (.inl (exists_of_mapM_error hparts))
    | ok es =>
      rw [hparts, ok_bind, ok_bind] at h
      dsimp only [finish] at h
      split at h
      · cases h
      · cases h
        exact .inr (.inr ⟨_, rfl⟩)

/-- Only a parameter can be nested too deep. -/
theorem readWith_tooDeep {parameter : Fragment → Except Stop TypeName} {f : Fragment} {stop : Stop}
    {limit : Nat} (h : readWith parameter f = .error stop) (hflaw : stop.flaw = .tooDeep limit) :
    ∃ p ∈ parts f, parameter p = .error stop := by
  rcases readWith_error h with hcut | hparameter | ⟨c, hbehind⟩
  · exact absurd hflaw ((cut_misses f stop hcut).2 limit)
  · exact hparameter
  · rw [hbehind] at hflaw
    cases hflaw

/-- Reads a parameter where so many levels of the limit are left. -/
def readBelow (limit : Nat) : Nat → Fragment → Except Stop TypeName
  | 0, p => .error ⟨p.offset + 1, .tooDeep limit⟩
  | levels + 1, p => readWith (readBelow limit levels) p

/-- The whole input counts as one level. -/
theorem readLevel_eq (limit levels : Nat) : readLevel limit levels = readBelow limit (levels + 1) := by
  induction levels with
  | zero => rfl
  | succ levels ih =>
    funext f
    rw [readLevel, ih, readBelow]

theorem read_eq_ok {limit : Nat} {input : Text} {e : TypeName} :
    read limit input = .ok e ↔ readBelow limit (limit + 1) ⟨input, 0⟩ = .ok e := by
  rw [read, readLevel_eq]
  cases readBelow limit (limit + 1) ⟨input, 0⟩ <;> simp

variable {limit other levels more : Nat} {p : Fragment}

theorem readBelow_limited (h : levels ≤ more) (p : Fragment) :
    Limited limit (readBelow limit levels p) (readBelow other more p) := by
  induction levels generalizing more p with
  | zero => exact .inr ⟨p.offset + 1, rfl⟩
  | succ levels ih =>
    cases more with
    | zero => exact absurd h (Nat.not_succ_le_zero levels)
    | succ more => exact readWith_limited (fun q => ih (Nat.le_of_succ_le_succ h) q) p

/-- What is too deep lies as many levels below as were left. -/
theorem readBelow_tooDeep {stop : Stop} (h : readBelow limit levels p = .error stop)
    (hflaw : stop.flaw = .tooDeep other) : ∃ q, q ∈ descendants parts levels p := by
  induction levels generalizing p with
  | zero => exact ⟨p, List.mem_singleton_self p⟩
  | succ levels ih =>
    rw [readBelow] at h
    obtain ⟨r, hr, hstop⟩ := readWith_tooDeep h hflaw
    obtain ⟨q, hq⟩ := ih hstop
    exact ⟨q, (mem_descendants_succ parts).2 ⟨r, hr, hq⟩⟩

theorem depthOfAll_le {n : Nat} {es : List TypeName} (h : ∀ e ∈ es, e.depth < n) :
    depthOfAll es ≤ n := by
  induction es with
  | nil => exact Nat.zero_le n
  | cons e es ih =>
    obtain ⟨he, hes⟩ := List.forall_mem_cons.1 h
    rw [depthOfAll]
    exact Nat.max_le.2 ⟨he, ih hes⟩

/-- What is read has fewer levels of parameters than were left. -/
theorem readBelow_depth {e : TypeName} (h : readBelow limit levels p = .ok e) : e.depth < levels := by
  induction levels generalizing p e with
  | zero => cases h
  | succ levels ih =>
    rw [readBelow] at h
    obtain ⟨c, -, -, -, hparams⟩ := readWith_ok h
    rw [depth_eq, Nat.lt_succ_iff]
    exact depthOfAll_le (forall_of_forall₂ hparams fun part _ e he => ih he)

/-! ## Levels of types -/

section Types

variable {scope : TypeScope} (keyspace : String)

/-- A type has no more levels than the expression that it is denoted by. Wrappers are levels of the
expression, and none of the type. -/
theorem within_resolve (htuple : ColumnType.Enclosing scope.makeTuple)
    (e : TypeName) (frozen : Bool) :
    Within ColumnType.inner e.depth (e.resolve scope keyspace frozen).type := by
  induction e generalizing frozen with
  | native _ => exact .zero _ rfl _
  | empty => exact .zero _ rfl _
  | user name =>
    rw [resolve]
    cases scope.userType? keyspace name with
    | some definition => exact .zero _ rfl _
    | none => exact .zero _ rfl _
  | list element ih => exact .succ _ (List.forall_mem_singleton.2 (ih false))
  | set element ih => exact .succ _ (List.forall_mem_singleton.2 (ih false))
  | map key value ihk ihv =>
    refine .succ _ (List.forall_mem_cons.2 ⟨?_, List.forall_mem_singleton.2 ?_⟩)
    · exact (ihk false).mono _ (Nat.le_max_left _ _)
    · exact (ihv false).mono _ (Nat.le_max_right _ _)
  | frozen inner ih => exact (ih true).mono _ (Nat.le_succ _)
  | tuple elements ih =>
    rw [resolve, resolveAll_eq, depth]
    intro n t ht
    cases n with
    | zero => exact Nat.zero_le _
    | succ n =>
      obtain ⟨c, hc, ht⟩ := (mem_descendants_succ _).1 ht
      obtain ⟨e, he, rfl⟩ := List.mem_map.1 (htuple _ hc)
      exact Nat.le_trans (Nat.succ_le_succ (ih e he false n t ht)) (mem_depthOfAll he)

end Types

end TypeName

/-- Under the smaller of two limits a text fares as under the larger one, or its parameters are nested
too deep for the smaller one, and that is told. The type has no more levels than the limit if the tuples
that it is put together from have no other elements than they were given; definitions of user types are
not looked into. A text whose parameters have no more levels than the limit is never too deep. -/
theorem TypePass.parse_limited {limit more : Nat} (hle : limit ≤ more) (scope : TypeScope)
    (keyspace : String) (frozen : Bool) (input : Text) :
    (parse limit scope keyspace frozen input = parse more scope keyspace frozen input ∨
      ∃ position, parse limit scope keyspace frozen input =
        .error ⟨input, position, .tooDeep limit⟩) ∧
    (ColumnType.Enclosing scope.makeTuple →
      ∀ resolved, parse limit scope keyspace frozen input = .ok resolved →
        Within ColumnType.inner limit resolved.type) ∧
    (Within TypeName.parts limit ⟨input, 0⟩ →
      ∀ fault, parse limit scope keyspace frozen input = .error fault →
        ∀ told, fault.flaw ≠ .tooDeep told) := by
  rw [parse_eq, parse_eq, TypeName.read, TypeName.read, TypeName.readLevel_eq,
    TypeName.readLevel_eq]
  refine ⟨?_, ?_, ?_⟩
  · have hlimited : TypeName.Limited limit (TypeName.readBelow limit (limit + 1) ⟨input, 0⟩)
        (TypeName.readBelow more (more + 1) ⟨input, 0⟩) :=
      TypeName.readBelow_limited (Nat.succ_le_succ hle) _
    rcases hlimited with heq | ⟨position, heq⟩
    · exact .inl (by rw [heq])
    · exact .inr ⟨position, by rw [heq]; rfl⟩
  · intro htuple resolved h
    cases hread : TypeName.readBelow limit (limit + 1) ⟨input, 0⟩ with
    | error stop =>
      rw [hread] at h
      cases h
    | ok e =>
      rw [hread] at h
      cases h
      exact (e.within_resolve keyspace htuple frozen).mono _
        (Nat.lt_succ_iff.1 (TypeName.readBelow_depth hread))
  · intro hwithin fault h told htold
    cases hread : TypeName.readBelow limit (limit + 1) ⟨input, 0⟩ with
    | ok e =>
      rw [hread] at h
      cases h
    | error stop =>
      rw [hread] at h
      cases h
      obtain ⟨q, hq⟩ := TypeName.readBelow_tooDeep hread htold
      exact absurd (hwithin _ q hq) (Nat.not_succ_le_self limit)

/-- Two levels of parameters are too deep for a limit of one; a limit of two reads what a larger one
reads. -/
theorem TypePass.parse_limited_nested :
    ∃ resolved, parse 2 .none "ks" false "map<a, list<tuple<>>>".toList = .ok resolved ∧
      parse 64 .none "ks" false "map<a, list<tuple<>>>".toList = .ok resolved ∧
      Within ColumnType.inner 2 resolved.type ∧
      Within TypeName.parts 2 ⟨"map<a, list<tuple<>>>".toList, 0⟩ ∧
      parse 1 .none "ks" false "map<a, list<tuple<>>>".toList =
        .error ⟨"map<a, list<tuple<>>>".toList, 13, .tooDeep 1⟩ := by
  have hparse : parse 2 .none "ks" false "map<a, list<tuple<>>>".toList =
      .ok ⟨.map (.custom "a") (.list (.tuple []) false) false, ["a"]⟩ := by decide +kernel
  have hinner : ColumnType.Enclosing TypeScope.none.makeTuple := ColumnType.Arranging.standard.enclosing
  obtain ⟨hsame | ⟨position, hdeep⟩, htype, -⟩ := parse_limited (show 2 ≤ 64 by decide) .none "ks"
    false "map<a, list<tuple<>>>".toList
  · exact ⟨_, hparse, hsame.symm.trans hparse, htype hinner _ hparse, .of_descendants _ (by decide +kernel),
      by decide +kernel⟩
  · rw [hparse] at hdeep
    cases hdeep

end Cql
