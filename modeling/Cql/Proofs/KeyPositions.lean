import Cql.Proofs.TypeReferences
import Cql.Schema.View
import Mathlib.Data.Int.Order.Basic
import Mathlib.Data.Nat.Basic

/-!
The positions of the columns of a key. They are complete if they are those from zero on, each once, in
whatever order the rows stand. If they are not, the position that is told of follows positions that are
all taken, and is missing itself unless one of the positions is negative or taken twice.
-/

namespace Cql

/-- The column that a row gives, its type read in a keyspace. Only clustering columns have an order. -/
def ColumnRow.Gives (limit : Nat) (scope : TypeScope) (keyspace : String) (row : ColumnRow)
    (c : Column) : Prop :=
  ∃ t, TypePass.parse limit scope keyspace false row.type = .ok t ∧
    c = ⟨row.name, t.type, row.kind, if row.kind = .clustering then some row.order else none⟩

variable {limit : Nat} {scope : TypeScope} {keyspace : String}

theorem Column.ofRow_ok_iff {row : ColumnRow} {placed : Int × Column} :
    Column.ofRow limit scope keyspace row = .ok placed ↔
      row.Gives limit scope keyspace placed.2 ∧ placed.1 = row.position := by
  rw [ColumnRow.Gives, TypePass.parse_eq, Column.ofRow, ColumnType.read]
  obtain ⟨position, c⟩ := placed
  cases TypeName.read limit row.type with
  | error fault => simp
  | ok e =>
    simp only [ok_bind, map_ok, Except.ok.injEq, Prod.mk.injEq, exists_eq_left']
    exact ⟨fun h => ⟨h.2.symm, h.1.symm⟩, fun h => ⟨h.2.symm, h.1.symm⟩⟩

/-- A row that gives no column has a type that is not read. -/
theorem Column.ofRow_error {row : ColumnRow} {fault : SchemaFault}
    (h : Column.ofRow limit scope keyspace row = .error fault) : ∃ found, fault = .type found := by
  rcases bind_error_iff.1 h with h | ⟨type, -, h⟩
  · rw [ColumnType.read] at h
    split at h
    · cases h
    · cases h
      exact ⟨_, rfl⟩
  · cases h

namespace Columns

/-- The positions of the columns of a kind, in the order of the rows. -/
def positions (kind : ColumnKind) (rows : List ColumnRow) : List Int :=
  (rows.filter (·.kind == kind)).map (·.position)

/-- The positions from zero on. -/
def firstPositions (n : Nat) : List Int := (List.range n).map Int.ofNat

/-- The columns of a kind have the positions from zero on, each once. -/
def Complete (kind : ColumnKind) (rows : List ColumnRow) : Prop :=
  (positions kind rows).Perm (firstPositions (positions kind rows).length)

/-! ## Columns in a row -/

theorem consecutive_ok_iff {next : Nat} {columns : List (Int × Column)} {key : List Column} :
    consecutive next columns = .ok key ↔
      columns.map (·.1) = (List.range' next columns.length).map Int.ofNat ∧ key = columns.map (·.2) := by
  induction columns generalizing next key with
  | nil => simp [consecutive, eq_comm]
  | cons c columns ih =>
    obtain ⟨position, column⟩ := c
    rw [consecutive, List.length_cons, List.range'_succ, List.map_cons, List.map_cons, List.map_cons,
      List.cons.injEq]
    split
    · next hposition =>
      rw [map_ok_iff]
      simp only [ih]
      constructor
      · rintro ⟨rest, ⟨hrest, rfl⟩, rfl⟩
        exact ⟨⟨hposition, hrest⟩, rfl⟩
      · rintro ⟨⟨-, hrest⟩, rfl⟩
        exact ⟨_, ⟨hrest, rfl⟩, rfl⟩
    · next hposition =>
      constructor
      · intro h
        cases h
      · rintro ⟨⟨heq, -⟩, -⟩
        exact absurd heq hposition

/-- Columns that are not in a row are so up to one of them, whose place is told. -/
theorem consecutive_error {next p : Nat} {columns : List (Int × Column)}
    (h : consecutive next columns = .error p) :
    ∃ (front : List (Int × Column)) (c : Int × Column) (back : List (Int × Column)),
      columns = front ++ c :: back ∧
      front.map (·.1) = (List.range' next front.length).map Int.ofNat ∧
      c.1 ≠ (next + front.length : Nat) ∧ p = min (next + front.length) greatestPosition := by
  induction columns generalizing next with
  | nil => cases h
  | cons c columns ih =>
    obtain ⟨position, column⟩ := c
    rw [consecutive] at h
    split at h
    · next hposition =>
      obtain ⟨front, other, back, rfl, hfront, hother, rfl⟩ := ih (map_error_iff.1 h)
      have hlength : next + 1 + front.length = next + ((position, column) :: front).length := by
        rw [List.length_cons]
        omega
      refine ⟨(position, column) :: front, other, back, rfl, ?_, hlength ▸ hother, by rw [hlength]⟩
      rw [List.map_cons, List.length_cons, List.range'_succ, List.map_cons, hfront]
      exact congrArg (· :: _) hposition
    · next hposition =>
      cases h
      exact ⟨[], (position, column), columns, rfl, rfl, hposition, rfl⟩

/-! ## Columns by position -/

theorem byPosition_perm (kind : ColumnKind) (columns : List (Int × Column)) :
    (byPosition kind columns).Perm (columns.filter (·.2.kind == kind)) :=
  List.mergeSort_perm _ _

theorem byPosition_pairwise (kind : ColumnKind) (columns : List (Int × Column)) :
    (byPosition kind columns).Pairwise fun a b => a.1 ≤ b.1 :=
  pairwise_mergeSort_key Prod.fst (fun _ _ _ => Int.le_trans) Int.le_total _

/-- The columns of rows stand where their rows do. -/
theorem filter_kind {rows : List ColumnRow} {columns : List (Int × Column)}
    (h : List.Forall₂ (fun row c => Column.ofRow limit scope keyspace row = .ok c) rows columns)
    (test : ColumnKind → Bool) :
    List.Forall₂ (fun row c => Column.ofRow limit scope keyspace row = .ok c)
      (rows.filter (test ·.kind)) (columns.filter (test ·.2.kind)) := by
  refine List.rel_filter (fun row c hc => ?_) h
  obtain ⟨⟨t, -, hcolumn⟩, -⟩ := Column.ofRow_ok_iff.1 hc
  simp only [hcolumn]

/-- The columns of a kind have the positions that their rows have. -/
theorem map_positions {rows : List ColumnRow} {columns : List (Int × Column)}
    (h : rows.mapM (Column.ofRow limit scope keyspace) = .ok columns) (kind : ColumnKind) :
    (columns.filter (·.2.kind == kind)).map (·.1) = positions kind rows := by
  have hfilter := filter_kind (mapM_ok_iff_forall₂.1 h) (· == kind)
  rw [positions, ← List.forall₂_eq_eq_eq, List.forall₂_map_left_iff, List.forall₂_map_right_iff]
  exact hfilter.flip.imp fun c row hc => (Column.ofRow_ok_iff.1 hc).2

theorem byPosition_positions {rows : List ColumnRow} {columns : List (Int × Column)}
    (h : rows.mapM (Column.ofRow limit scope keyspace) = .ok columns) (kind : ColumnKind) :
    ((byPosition kind columns).map (·.1)).Perm (positions kind rows) :=
  map_positions h kind ▸ (byPosition_perm kind columns).map _

/-! ## What is told -/

/-- All lower positions are taken. The position itself is missing, if none is negative and none below is
taken twice: a column with a negative position stands in the first place, and one with a position that
is taken already stands in the place of the next one. The greatest position stands for all places behind
it, where only columns with that position can be. -/
def Tells (positions : List Int) (p : Nat) : Prop :=
  (∀ q < p, (q : Int) ∈ positions) ∧
    ((p : Int) ∉ positions ∨ (p = 0 ∧ ∃ x ∈ positions, x < 0) ∨
      (∃ q, p = q + 1 ∧ 2 ≤ positions.count (q : Int)) ∨
      (p = greatestPosition ∧ 2 ≤ positions.count (p : Int)))

/-- Where no position is negative and none is taken twice, the position that is told of is missing. -/
theorem Tells.missing {positions : List Int} {p : Nat} (h : Tells positions p)
    (hnodup : positions.Nodup) (hpositive : ∀ x ∈ positions, 0 ≤ x) : (p : Int) ∉ positions := by
  have honce : ∀ x, ¬ 2 ≤ positions.count x := fun x => by
    have := List.nodup_iff_count_le_one.1 hnodup x
    omega
  rcases h.2 with hmissing | ⟨-, x, hx, hnegative⟩ | ⟨q, -, htwice⟩ | ⟨-, htwice⟩
  · exact hmissing
  · exact absurd (hpositive x hx) (by omega)
  · exact absurd htwice (honce _)
  · exact absurd htwice (honce _)

theorem Tells.perm {l m : List Int} {p : Nat} (h : Tells l p) (hperm : l.Perm m) : Tells m p := by
  obtain ⟨hlower, htold⟩ := h
  refine ⟨fun q hq => hperm.mem_iff.1 (hlower q hq), ?_⟩
  simpa only [hperm.mem_iff, hperm.count_eq] using htold

/-- A position that is in the front and stands right behind it is taken twice. -/
theorem two_le_count {front back : List Int} {x : Int} (h : x ∈ front) :
    2 ≤ (front ++ x :: back).count x := by
  have hfront := List.count_pos_iff.2 h
  rw [List.count_append, List.count_cons_self]
  omega

theorem mem_firstPositions {n q : Nat} (h : q < n) : (q : Int) ∈ firstPositions n :=
  List.mem_map_of_mem (List.mem_range.2 h)

/-- A position that is jumped over is missing. -/
theorem not_mem_of_gap {n : Nat} {x : Int} {back : List Int} (hback : (x :: back).Pairwise (· ≤ ·))
    (hgap : n < x) : (n : Int) ∉ firstPositions n ++ x :: back := by
  intro hn
  rcases List.mem_append.1 hn with hn | hn
  · obtain ⟨q, hq, heq⟩ := List.mem_map.1 hn
    have hlt : q < n := List.mem_range.1 hq
    have : q = n := Int.ofNat.inj heq
    omega
  · rcases List.mem_cons.1 hn with hn | hn
    · omega
    · have hle : x ≤ n := (List.pairwise_cons.1 hback).1 _ hn
      omega

/-- A position that is repeated, and the one behind it, which is told if there is one. -/
theorem told_of_repeated {n : Nat} {positions : List Int} (hcount : 2 ≤ positions.count (n : Int))
    (hbound : n ≤ greatestPosition) :
    (∃ q, min (n + 1) greatestPosition = q + 1 ∧ 2 ≤ positions.count (q : Int)) ∨
      (min (n + 1) greatestPosition = greatestPosition ∧
        2 ≤ positions.count ((min (n + 1) greatestPosition : Nat) : Int)) := by
  rcases Nat.lt_or_ge n greatestPosition with hsmall | hgreat
  · exact .inl ⟨n, min_eq_left hsmall, hcount⟩
  · have hn : n = greatestPosition := Nat.le_antisymm hbound hgreat
    have hmin : min (n + 1) greatestPosition = n := by
      rw [← hn]
      exact min_eq_right n.le_succ
    rw [hmin]
    exact .inr ⟨hn, hcount⟩

/-- Positions in increasing order, the first of which are in their places. -/
theorem tells_of_sorted {n : Nat} {x : Int} {back : List Int}
    (hsorted : (firstPositions n ++ x :: back).Pairwise (· ≤ ·)) (hx : x ≠ n)
    (hbound : x ≤ greatestPosition) :
    Tells (firstPositions n ++ x :: back) (min n greatestPosition) := by
  obtain ⟨-, hback, hfront⟩ := List.pairwise_append.1 hsorted
  refine ⟨fun q hq => List.mem_append_left _ ?_, ?_⟩
  · exact mem_firstPositions (lt_of_lt_of_le hq (min_le_left _ _))
  rcases lt_or_gt_of_ne hx with hlt | hgt
  · cases n with
    | zero =>
      refine .inr (.inl ⟨by simp, x, List.mem_append_right _ List.mem_cons_self, hlt⟩)
    | succ n =>
      -- what stands behind the last position of the front is not less, and so the same
      have hmem : (n : Int) ∈ firstPositions (n + 1) := mem_firstPositions n.lt_succ_self
      have hlast : (n : Int) ≤ x := hfront _ hmem x List.mem_cons_self
      have heq : x = n := by
        push_cast at hlt
        omega
      subst heq
      exact .inr (.inr (told_of_repeated (two_le_count hmem) (by exact_mod_cast hbound)))
  · have hsmall : n ≤ greatestPosition := by
      have : (n : Int) < greatestPosition := lt_of_lt_of_le hgt hbound
      omega
    rw [min_eq_left hsmall]
    exact .inl (not_mem_of_gap hback hgt)

theorem key_error {kind : ColumnKind} {columns : List (Int × Column)} {p : Nat}
    (hbound : ∀ c ∈ columns, c.1 ≤ greatestPosition) (h : key kind columns = .error p) :
    Tells ((byPosition kind columns).map (·.1)) p := by
  obtain ⟨front, c, back, hsplit, hfront, hc, rfl⟩ := consecutive_error h
  rw [Nat.zero_add] at hc ⊢
  have hmap : (byPosition kind columns).map (·.1) =
      firstPositions front.length ++ c.1 :: back.map (·.1) := by
    rw [hsplit, List.map_append, List.map_cons, hfront, firstPositions, List.range_eq_range']
  have hmem : c ∈ byPosition kind columns := by
    rw [hsplit]
    exact List.mem_append_right _ List.mem_cons_self
  rw [hmap]
  refine tells_of_sorted ?_ hc (hbound c (List.mem_of_mem_filter ((byPosition_perm _ _).mem_iff.1 hmem)))
  rw [← hmap]
  exact List.pairwise_map.2 (byPosition_pairwise kind columns)

end Columns

/-! ## Tables and views -/

variable {rows : List ColumnRow}

theorem Table.ofRow_error {row : TableRow} {fault : SchemaFault}
    (h : Table.ofRow limit scope row rows = .error fault) :
    Columns.ofRows limit scope row.keyspace rows = .error fault := by
  rcases bind_error_iff.1 h with h | ⟨c, -, h⟩
  · exact h
  · cases h

theorem View.ofRow_error {s : Scope} {row : ViewRow} {fault : SchemaFault}
    (h : View.ofRow limit s row rows = .error fault) :
    Columns.ofRows limit s.toTypeScope row.keyspace rows = .error fault := by
  rw [View.ofRow] at h
  split at h
  · cases h
  · rcases bind_error_iff.1 h with h | ⟨c, -, h⟩
    · exact h
    · cases h

namespace Columns

/-- A fault of the whole is one of a type, or comes from the positions of one of the keys. -/
theorem ofRows_error {fault : SchemaFault} (h : ofRows limit scope keyspace rows = .error fault) :
    (∃ found, fault = .type found) ∨
      ∃ columns, rows.mapM (Column.ofRow limit scope keyspace) = .ok columns ∧
        ((∃ p, key .partitionKey columns = .error p ∧ fault = .incompletePartitionKey p) ∨
          ∃ p, key .clustering columns = .error p ∧ fault = .incompleteClusteringKey p) := by
  rcases bind_error_iff.1 h with h | ⟨columns, hcolumns, h⟩
  · obtain ⟨row, -, hrow⟩ := exists_of_mapM_error h
    exact .inl (Column.ofRow_error hrow)
  · refine .inr ⟨columns, hcolumns, ?_⟩
    rcases bind_error_iff.1 h with h | ⟨partition, -, h⟩
    · exact .inl (mapError_error_iff.1 h)
    · rcases bind_error_iff.1 h with h | ⟨clustering, -, h⟩
      · exact .inr (mapError_error_iff.1 h)
      · cases h

theorem ofRows_tells (hbound : ∀ row ∈ rows, row.position ≤ greatestPosition) {p : Nat} :
    (ofRows limit scope keyspace rows = .error (.incompletePartitionKey p) →
      Tells (positions .partitionKey rows) p) ∧
    (ofRows limit scope keyspace rows = .error (.incompleteClusteringKey p) →
      Tells (positions .clustering rows) p) := by
  have htells : ∀ {columns kind p}, rows.mapM (Column.ofRow limit scope keyspace) = .ok columns →
      key kind columns = .error p → Tells (positions kind rows) p := by
    intro columns kind p hcolumns hkey
    have hcolumn : ∀ c ∈ columns, c.1 ≤ greatestPosition :=
      forall_of_forall₂ (mapM_ok_iff_forall₂.1 hcolumns) fun row hrow c hc =>
        (Column.ofRow_ok_iff.1 hc).2 ▸ hbound row hrow
    exact (key_error hcolumn hkey).perm (byPosition_positions hcolumns kind)
  constructor
  · intro h
    obtain ⟨found, hfound⟩ | ⟨columns, hcolumns, ⟨q, hkey, hq⟩ | ⟨q, -, hq⟩⟩ := ofRows_error h
    · cases hfound
    · cases hq
      exact htells hcolumns hkey
    · cases hq
  · intro h
    obtain ⟨found, hfound⟩ | ⟨columns, hcolumns, ⟨q, -, hq⟩ | ⟨q, hkey, hq⟩⟩ := ofRows_error h
    · cases hfound
    · cases hq
    · cases hq
      exact htells hcolumns hkey

/-- A table or a view is not put together where the positions of one of its keys are not complete. The
position that is told of follows positions that are all taken. It is missing, if no position of the key
is negative and none is taken twice; otherwise it may be the one behind a position that is taken twice,
or zero where one is negative. -/
theorem incomplete_key_tells {s : Scope} (hbound : ∀ row ∈ rows, row.position ≤ greatestPosition)
    {p : Nat} :
    ((∃ row, Table.ofRow limit s.toTypeScope row rows = .error (.incompletePartitionKey p)) ∨
        (∃ row, View.ofRow limit s row rows = .error (.incompletePartitionKey p)) →
      Tells (positions .partitionKey rows) p ∧
        ((positions .partitionKey rows).Nodup → (∀ x ∈ positions .partitionKey rows, 0 ≤ x) →
          (p : Int) ∉ positions .partitionKey rows)) ∧
    ((∃ row, Table.ofRow limit s.toTypeScope row rows = .error (.incompleteClusteringKey p)) ∨
        (∃ row, View.ofRow limit s row rows = .error (.incompleteClusteringKey p)) →
      Tells (positions .clustering rows) p ∧
        ((positions .clustering rows).Nodup → (∀ x ∈ positions .clustering rows, 0 ≤ x) →
          (p : Int) ∉ positions .clustering rows)) := by
  have hfault : ∀ fault, (∃ row, Table.ofRow limit s.toTypeScope row rows = .error fault) ∨
      (∃ row, View.ofRow limit s row rows = .error fault) →
      ∃ keyspace, ofRows limit s.toTypeScope keyspace rows = .error fault := by
    rintro fault (⟨row, h⟩ | ⟨row, h⟩)
    · exact ⟨row.keyspace, Table.ofRow_error h⟩
    · exact ⟨row.keyspace, View.ofRow_error h⟩
  constructor
  · intro h
    obtain ⟨keyspace, hrows⟩ := hfault _ h
    have htells := (ofRows_tells hbound).1 hrows
    exact ⟨htells, htells.missing⟩
  · intro h
    obtain ⟨keyspace, hrows⟩ := hfault _ h
    have htells := (ofRows_tells hbound).2 hrows
    exact ⟨htells, htells.missing⟩

/-- What the partition key of a table lacks is told first, once all types are read. -/
theorem ofRow_of_key {row : TableRow} {columns : List (Int × Column)} {p : Nat}
    (hcolumns : rows.mapM (Column.ofRow limit scope row.keyspace) = .ok columns)
    (hkey : key .partitionKey columns = .error p) :
    Table.ofRow limit scope row rows = .error (.incompletePartitionKey p) := by
  simp only [Table.ofRow, ofRows, ofRowsBy, hcolumns, hkey, bind, Except.bind, Except.mapError]

/-- Two columns of a partition key, between the positions of which one is missing. -/
theorem incomplete_key_tells_gap :
    let rows : List ColumnRow := [⟨"b", .partitionKey, 2, "int".toList, .ascending⟩,
      ⟨"a", .partitionKey, 0, "text".toList, .ascending⟩]
    (∀ row ∈ rows, row.position ≤ greatestPosition) ∧
      Table.ofRow 64 .none ⟨"ks", "t", none, []⟩ rows = .error (.incompletePartitionKey 1) ∧
      Tells (positions .partitionKey rows) 1 ∧ (1 : Int) ∉ positions .partitionKey rows := by
  intro rows
  have hbound : ∀ row ∈ rows, row.position ≤ greatestPosition := by decide
  have hcolumns : rows.mapM (Column.ofRow 64 .none "ks") = .ok
      [(2, ⟨"b", .native .int, .partitionKey, none⟩), (0, ⟨"a", .native .text, .partitionKey, none⟩)] := by
    decide +kernel
  have hfault : Table.ofRow 64 .none ⟨"ks", "t", none, []⟩ rows = .error (.incompletePartitionKey 1) :=
    ofRow_of_key hcolumns (by simp [key, byPosition, List.mergeSort, consecutive, greatestPosition])
  obtain ⟨htells, hmissing⟩ := (incomplete_key_tells (s := .ofTypes .none) hbound).1
    (.inl ⟨⟨"ks", "t", none, []⟩, hfault⟩)
  exact ⟨hbound, hfault, htells, hmissing (by decide) (by decide)⟩

/-- Of three columns two have the first position. What is told to be missing is the position of the
third. -/
theorem told_position_taken :
    let rows : List ColumnRow := [⟨"a", .partitionKey, 0, "int".toList, .ascending⟩,
      ⟨"b", .partitionKey, 0, "int".toList, .ascending⟩,
      ⟨"c", .partitionKey, 1, "int".toList, .ascending⟩]
    Table.ofRow 64 .none ⟨"ks", "t", none, []⟩ rows = .error (.incompletePartitionKey 1) ∧
      (1 : Int) ∈ positions .partitionKey rows := by
  intro rows
  have hcolumns : rows.mapM (Column.ofRow 64 .none "ks") = .ok
      [(0, ⟨"a", .native .int, .partitionKey, none⟩), (0, ⟨"b", .native .int, .partitionKey, none⟩),
        (1, ⟨"c", .native .int, .partitionKey, none⟩)] := by
    decide +kernel
  refine ⟨ofRow_of_key hcolumns ?_, by decide⟩
  simp [key, byPosition, List.mergeSort, consecutive, greatestPosition]

end Columns

end Cql
