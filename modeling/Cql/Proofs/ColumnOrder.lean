import Cql.Proofs.KeyPositions
import Mathlib.Data.List.Perm.Basic

/-!
The order of columns. Those of the keys stand by position, the others by name, and none is lost but those
of the type without values; it does not matter in which order the rows stand, nor how columns of one name
are sorted.
-/

namespace Cql

variable {limit : Nat} {scope : TypeScope} {keyspace : String} {rows : List ColumnRow}

theorem ColumnRow.gives_unique : Relator.RightUnique (ColumnRow.Gives limit scope keyspace) := by
  intro row c d hc hd
  obtain ⟨t, ht, rfl⟩ := hc
  obtain ⟨u, hu, rfl⟩ := hd
  rw [ht] at hu
  cases hu
  rfl

theorem ColumnType.isEmptyType_iff (t : ColumnType) : t.isEmptyType = true ↔ t = .empty := by
  cases t <;> simp [isEmptyType]

namespace Columns

/-- A key holds the columns of the rows of a kind, each in the place that its position says. -/
def Places (limit : Nat) (scope : TypeScope) (keyspace : String) (kind : ColumnKind)
    (rows : List ColumnRow) (key : List Column) : Prop :=
  ∃ placed : List ColumnRow, placed.Perm (rows.filter (·.kind == kind)) ∧
    placed.map (·.position) = firstPositions placed.length ∧
    List.Forall₂ (ColumnRow.Gives limit scope keyspace) placed key

/-- The columns of some rows in order. -/
structure Arranged (limit : Nat) (scope : TypeScope) (keyspace : String) (rows : List ColumnRow)
    (c : Columns) : Prop where
  partition : Places limit scope keyspace .partitionKey rows c.partitionKey
  clustering : Places limit scope keyspace .clustering rows c.clusteringKey
  /-- Of the columns outside of the keys all stay whose type is not the one without values. -/
  others : ∃ given : List Column,
    List.Forall₂ (ColumnRow.Gives limit scope keyspace)
      (rows.filter fun row => row.kind == .regular || row.kind == .static) given ∧
    c.others.Perm (given.filter fun d => d.type ≠ .empty)
  byName : c.others.Pairwise fun a b => a.name ≤ b.name

/-- Puts any columns in the order of their names; which of two columns of one name comes first is left
open. -/
def SortsByName (sort : List Column → List Column) : Prop :=
  ∀ columns, (sort columns).Perm columns ∧ (sort columns).Pairwise fun a b => a.name ≤ b.name

theorem byName_sorts : SortsByName byName := fun columns =>
  ⟨List.mergeSort_perm _ _,
    pairwise_mergeSort_key Column.name (fun _ _ _ => String.le_trans) String.le_total columns⟩

/-! ## Keys -/

theorem nodup_firstPositions (n : Nat) : (firstPositions n).Nodup :=
  List.nodup_range.map fun _ _ => Int.ofNat.inj

theorem pairwise_firstPositions (n : Nat) : (firstPositions n).Pairwise (· ≤ ·) := by
  refine List.pairwise_lt_range.map _ fun a b hab => ?_
  exact Int.ofNat_le.2 (Nat.le_of_lt hab)

/-- Elements whose positions are those from zero on, in this order, are determined by which elements there
are. -/
theorem placed_unique {α : Type} {position : α → Int} {l m : List α} (hperm : l.Perm m)
    (hl : l.map position = firstPositions l.length) (hm : (m.map position).Pairwise (· ≤ ·)) :
    l = m := by
  have hnodup : (l.map position).Nodup := hl ▸ nodup_firstPositions _
  have hsorted : (l.map position).Pairwise (· ≤ ·) := hl ▸ pairwise_firstPositions _
  exact eq_of_perm_of_key position (fun _ _ => Int.le_antisymm) hperm hnodup
    (List.pairwise_map.1 hsorted) (List.pairwise_map.1 hm)

section Key

variable {columns : List (Int × Column)} (hcolumns : rows.mapM (Column.ofRow limit scope keyspace) =
  .ok columns) (kind : ColumnKind)

include hcolumns

/-- A key comes about exactly where its positions are complete. -/
theorem key_ok_iff {key : List Column} : Columns.key kind columns = .ok key ↔
    Complete kind rows ∧ key = (byPosition kind columns).map (·.2) := by
  have hperm := byPosition_positions hcolumns kind
  have hlength : (byPosition kind columns).length = (positions kind rows).length := by
    rw [← hperm.length_eq, List.length_map]
  rw [Columns.key, consecutive_ok_iff, ← List.range_eq_range', hlength]
  refine and_congr_left fun _ => ⟨fun h => ?_, fun h => ?_⟩
  · exact (h ▸ hperm).symm
  · -- two lists in increasing order with the same members
    exact (hperm.trans h).eq_of_pairwise (fun _ _ _ _ => Int.le_antisymm)
      (List.pairwise_map.2 (byPosition_pairwise kind columns)) (pairwise_firstPositions _)

/-- The columns of a key are those of its rows in the places of their positions. -/
theorem key_places {key : List Column} (h : Columns.key kind columns = .ok key) :
    Places limit scope keyspace kind rows key := by
  have hrows := filter_kind (mapM_ok_iff_forall₂.1 hcolumns) (· == kind)
  obtain ⟨placed, hplaced, hperm⟩ :=
    List.perm_comp_forall₂ (byPosition_perm kind columns) hrows.flip
  obtain ⟨hconsecutive, rfl⟩ := consecutive_ok_iff.1 h
  have hpositions : placed.map (·.position) = (byPosition kind columns).map (·.1) := by
    rw [← List.forall₂_eq_eq_eq, List.forall₂_map_left_iff, List.forall₂_map_right_iff]
    exact hplaced.flip.imp fun row c hc => (Column.ofRow_ok_iff.1 hc).2.symm
  refine ⟨placed, hperm, ?_, ?_⟩
  · rw [hpositions, hconsecutive, firstPositions, List.range_eq_range', hplaced.length_eq]
  · rw [List.forall₂_map_right_iff]
    exact hplaced.flip.imp fun row c hc => (Column.ofRow_ok_iff.1 hc).1

end Key

theorem Places.unique {kind : ColumnKind} {rows' : List ColumnRow} {key key' : List Column}
    (hrows : rows.Perm rows') (h : Places limit scope keyspace kind rows key)
    (h' : Places limit scope keyspace kind rows' key') : key = key' := by
  obtain ⟨placed, hperm, hpositions, hgives⟩ := h
  obtain ⟨placed', hperm', hpositions', hgives'⟩ := h'
  have hsame : placed = placed' :=
    placed_unique ((hperm.trans (hrows.filter _)).trans hperm'.symm) hpositions
      (hpositions' ▸ pairwise_firstPositions _)
  subst hsame
  exact List.right_unique_forall₂' ColumnRow.gives_unique hgives hgives'

theorem Places.kind {kind : ColumnKind} {key : List Column}
    (h : Places limit scope keyspace kind rows key) :
    key.length = rows.countP (·.kind == kind) ∧
      ∀ c ∈ key, c.kind = kind ∧ (c.order.isSome ↔ kind = .clustering) := by
  obtain ⟨placed, hperm, -, hgives⟩ := h
  refine ⟨?_, forall_of_forall₂ hgives fun row hrow c hc => ?_⟩
  · rw [← hgives.length_eq, hperm.length_eq, List.countP_eq_length_filter]
  · obtain ⟨t, -, rfl⟩ := hc
    have hkind : row.kind = kind := by
      simpa using (List.mem_filter.1 (hperm.mem_iff.1 hrow)).2
    refine ⟨hkind, ?_⟩
    rw [← hkind]
    by_cases hclustering : row.kind = .clustering <;> simp [hclustering]

/-! ## All columns -/

section Rows

variable {sort : List Column → List Column}

theorem ofRowsBy_ok_iff {c : Columns} : ofRowsBy sort limit scope keyspace rows = .ok c ↔
    ∃ columns, rows.mapM (Column.ofRow limit scope keyspace) = .ok columns ∧
      key .partitionKey columns = .ok c.partitionKey ∧ key .clustering columns = .ok c.clusteringKey ∧
      c.others = sort (outside (columns.map (·.2))) := by
  simp only [ofRowsBy, bind_ok_iff, mapError_ok_iff, Except.ok.injEq]
  constructor
  · rintro ⟨columns, hcolumns, partition, hpartition, clustering, hclustering, rfl⟩
    exact ⟨columns, hcolumns, hpartition, hclustering, rfl⟩
  · rintro ⟨columns, hcolumns, hpartition, hclustering, hothers⟩
    exact ⟨columns, hcolumns, _, hpartition, _, hclustering, by rw [← hothers]⟩

theorem mapM_ofRow_ok_iff : (∃ columns, rows.mapM (Column.ofRow limit scope keyspace) = .ok columns) ↔
    ∀ row ∈ rows, ∃ t, TypePass.parse limit scope keyspace false row.type = .ok t := by
  simp only [mapM_ok_iff_forall₂]
  constructor
  · rintro ⟨columns, h⟩ row hrow
    obtain ⟨c, hc⟩ := exists_of_forall₂ h row hrow
    obtain ⟨⟨t, ht, -⟩, -⟩ := Column.ofRow_ok_iff.1 hc
    exact ⟨t, ht⟩
  · intro h
    refine exists_forall₂ fun row hrow => ?_
    obtain ⟨t, ht⟩ := h row hrow
    exact ⟨(row.position, _), Column.ofRow_ok_iff.2 ⟨⟨t, ht, rfl⟩, rfl⟩⟩

theorem exists_ofRowsBy_iff : (∃ c, ofRowsBy sort limit scope keyspace rows = .ok c) ↔
    (∀ row ∈ rows, ∃ t, TypePass.parse limit scope keyspace false row.type = .ok t) ∧
      Complete .partitionKey rows ∧ Complete .clustering rows := by
  rw [← mapM_ofRow_ok_iff]
  constructor
  · rintro ⟨c, h⟩
    obtain ⟨columns, hcolumns, hpartition, hclustering, -⟩ := ofRowsBy_ok_iff.1 h
    exact ⟨⟨columns, hcolumns⟩, ((key_ok_iff hcolumns _).1 hpartition).1,
      ((key_ok_iff hcolumns _).1 hclustering).1⟩
  · rintro ⟨⟨columns, hcolumns⟩, hpartition, hclustering⟩
    exact ⟨⟨_, _, _⟩, ofRowsBy_ok_iff.2 ⟨columns, hcolumns, (key_ok_iff hcolumns _).2 ⟨hpartition, rfl⟩,
      (key_ok_iff hcolumns _).2 ⟨hclustering, rfl⟩, rfl⟩⟩

theorem ofRowsBy_arranged (hsort : SortsByName sort) {c : Columns}
    (h : ofRowsBy sort limit scope keyspace rows = .ok c) : Arranged limit scope keyspace rows c := by
  obtain ⟨columns, hcolumns, hpartition, hclustering, hothers⟩ := ofRowsBy_ok_iff.1 h
  have hrows := filter_kind (mapM_ok_iff_forall₂.1 hcolumns) fun kind =>
    kind == .regular || kind == .static
  refine ⟨key_places hcolumns _ hpartition, key_places hcolumns _ hclustering,
    ⟨(columns.filter fun c => c.2.kind == .regular || c.2.kind == .static).map (·.2), ?_, ?_⟩,
    hothers ▸ (hsort _).2⟩
  · rw [List.forall₂_map_right_iff]
    exact hrows.imp fun row c hc => (Column.ofRow_ok_iff.1 hc).1
  · have hkept : outside (columns.map (·.2)) =
        ((columns.filter fun c => c.2.kind == .regular || c.2.kind == .static).map (·.2)).filter
          fun d => d.type ≠ .empty := by
      rw [outside, List.filter_map, List.filter_map, List.filter_filter]
      refine congrArg _ (List.filter_congr fun c _ => ?_)
      have htype : (!c.2.type.isEmptyType) = decide (c.2.type ≠ .empty) := by
        rw [Bool.eq_iff_iff, Bool.not_eq_true', decide_eq_true_eq, ← Bool.not_eq_true,
          ColumnType.isEmptyType_iff]
      simp only [Function.comp_apply, htype, Bool.and_comm]
    rw [hothers, ← hkept]
    exact (hsort _).1

end Rows

theorem Arranged.nodup_others {c : Columns} (h : Arranged limit scope keyspace rows c)
    (hnodup : (rows.map (·.name)).Nodup) : (c.others.map (·.name)).Nodup := by
  obtain ⟨given, hgiven, hperm⟩ := h.others
  have hnames : given.map (·.name) =
      (rows.filter fun row => row.kind == .regular || row.kind == .static).map (·.name) := by
    rw [← List.forall₂_eq_eq_eq, List.forall₂_map_left_iff, List.forall₂_map_right_iff]
    refine hgiven.flip.imp fun c row hc => ?_
    obtain ⟨t, -, rfl⟩ := hc
    rfl
  refine (hperm.map _).nodup_iff.2 (List.Nodup.sublist (List.filter_sublist.map _) ?_)
  rw [hnames]
  exact hnodup.sublist (List.filter_sublist.map _)

/-- What is in order is determined by which rows there are, if no name is repeated. -/
theorem Arranged.unique {rows' : List ColumnRow} {c d : Columns} (hrows : rows.Perm rows')
    (hnodup : (rows.map (·.name)).Nodup) (hc : Arranged limit scope keyspace rows c)
    (hd : Arranged limit scope keyspace rows' d) : c = d := by
  have hothers : c.others = d.others := by
    refine eq_of_perm_of_key Column.name (fun _ _ => String.le_antisymm) ?_ (hc.nodup_others hnodup)
      hc.byName hd.byName
    obtain ⟨given, hgiven, hperm⟩ := hc.others
    obtain ⟨given', hgiven', hperm'⟩ := hd.others
    have hsame : given.Perm given' :=
      List.rel_perm_imp ColumnRow.gives_unique hgiven hgiven' (hrows.filter _)
    exact (hperm.trans (hsame.filter _)).trans hperm'.symm
  have hpartition := hc.partition.unique hrows hd.partition
  have hclustering := hc.clustering.unique hrows hd.clustering
  cases c
  cases d
  cases hothers
  cases hpartition
  cases hclustering
  rfl

theorem positions_perm {rows' : List ColumnRow} (hrows : rows.Perm rows') (kind : ColumnKind) :
    (positions kind rows).Perm (positions kind rows') :=
  (hrows.filter _).map _

theorem Complete.perm {kind : ColumnKind} {rows' : List ColumnRow} (hrows : rows.Perm rows')
    (h : Complete kind rows) : Complete kind rows' := by
  have hpositions := positions_perm hrows kind
  rw [Complete, ← hpositions.length_eq]
  exact hpositions.symm.trans h

/-- Rows in another order give the same columns, however columns of one name are sorted. -/
theorem ofRowsBy_perm {sort sort' : List Column → List Column} (hsort : SortsByName sort)
    (hsort' : SortsByName sort') {rows' : List ColumnRow} (hrows : rows.Perm rows')
    (hnodup : (rows.map (·.name)).Nodup) {c : Columns}
    (h : ofRowsBy sort limit scope keyspace rows = .ok c) :
    ofRowsBy sort' limit scope keyspace rows' = .ok c := by
  obtain ⟨hparse, hpartition, hclustering⟩ := exists_ofRowsBy_iff.1 ⟨c, h⟩
  obtain ⟨d, hd⟩ : ∃ d, ofRowsBy sort' limit scope keyspace rows' = .ok d := exists_ofRowsBy_iff.2
    ⟨fun row hrow => hparse row (hrows.mem_iff.2 hrow), hpartition.perm hrows, hclustering.perm hrows⟩
  rw [hd, (ofRowsBy_arranged hsort h).unique hrows hnodup (ofRowsBy_arranged hsort' hd)]

/-- Only clustering columns have an order. -/
theorem Arranged.order {c : Columns} (h : Arranged limit scope keyspace rows c) :
    ∀ d ∈ c.all, (d.order.isSome ↔ d.kind = .clustering) := by
  have hkey : ∀ {kind key}, Places limit scope keyspace kind rows key →
      ∀ d ∈ key, (d.order.isSome ↔ d.kind = .clustering) := fun hplaces d hd => by
    obtain ⟨hkind, horder⟩ := hplaces.kind.2 d hd
    rw [horder, hkind]
  intro d hd
  rw [all, List.mem_append, List.mem_append] at hd
  rcases hd with (hd | hd) | hd
  · exact hkey h.partition d hd
  · exact hkey h.clustering d hd
  · obtain ⟨given, hgiven, hperm⟩ := h.others
    obtain ⟨row, t, -, rfl⟩ :=
      exists_of_forall₂ hgiven.flip d (List.mem_of_mem_filter (hperm.mem_iff.1 hd))
    by_cases hclustering : row.kind = .clustering <;> simp [hclustering]

/-- The columns of the keys stand first. -/
theorem Arranged.front {c : Columns} (h : Arranged limit scope keyspace rows c) :
    let n := rows.countP (·.kind == .partitionKey)
    let m := rows.countP (·.kind == .clustering)
    c.all.take n = c.partitionKey ∧ (c.all.drop n).take m = c.clusteringKey := by
  dsimp only
  rw [← h.partition.kind.1, ← h.clustering.kind.1, all, List.append_assoc, List.take_left,
    List.drop_left, List.take_left]
  exact ⟨rfl, rfl⟩

/-! ## Tables and views -/

/-- Columns are put in order exactly where every type is read and the positions of both keys are
complete. Then the columns of the partition key stand first by position, those of the clustering key
after them by position, and then the others by name, without those of the type without values; only
clustering columns have an order. If no name is repeated, the order of the rows makes no difference, to
columns, tables and views, nor does it matter how names are sorted. -/
theorem ofRows_exact {sort : List Column → List Column} (hsort : SortsByName sort) (limit : Nat)
    (scope : TypeScope) (keyspace : String) (rows : List ColumnRow) :
    ((∃ c, ofRowsBy sort limit scope keyspace rows = .ok c) ↔
      (∀ row ∈ rows, ∃ t, TypePass.parse limit scope keyspace false row.type = .ok t) ∧
        Complete .partitionKey rows ∧ Complete .clustering rows) ∧
    (∀ c, ofRowsBy sort limit scope keyspace rows = .ok c →
      Arranged limit scope keyspace rows c ∧
      (let n := rows.countP (·.kind == .partitionKey)
        let m := rows.countP (·.kind == .clustering)
        c.all.take n = c.partitionKey ∧ (c.all.drop n).take m = c.clusteringKey) ∧
      ∀ d ∈ c.all, (d.order.isSome ↔ d.kind = .clustering)) ∧
    ∀ rows', rows.Perm rows' → (rows.map (·.name)).Nodup →
      (∀ sort', SortsByName sort' → ∀ c, ofRowsBy sort limit scope keyspace rows = .ok c →
        ofRowsBy sort' limit scope keyspace rows' = .ok c) ∧
      (∀ row table, Table.ofRow limit scope row rows = .ok table →
        Table.ofRow limit scope row rows' = .ok table) ∧
      ∀ table? row view, View.ofRow limit ⟨scope, table?⟩ row rows = .ok view →
        View.ofRow limit ⟨scope, table?⟩ row rows' = .ok view := by
  refine ⟨exists_ofRowsBy_iff, fun c h => ?_, fun rows' hrows hnodup => ⟨?_, ?_, ?_⟩⟩
  · have harranged := ofRowsBy_arranged hsort h
    exact ⟨harranged, harranged.front, harranged.order⟩
  · exact fun sort' hsort' c h => ofRowsBy_perm hsort hsort' hrows hnodup h
  · intro row table h
    obtain ⟨c, hc, heq⟩ := bind_ok_iff.1 h
    exact bind_ok_iff.2 ⟨c, ofRowsBy_perm byName_sorts byName_sorts hrows hnodup hc, heq⟩
  · intro table? row view h
    rw [View.ofRow] at h ⊢
    split at h
    · exact h
    · obtain ⟨c, hc, heq⟩ := bind_ok_iff.1 h
      exact bind_ok_iff.2 ⟨c, ofRowsBy_perm byName_sorts byName_sorts hrows hnodup hc, heq⟩

/-- A column of the type without values is left out, one of a user type with its name stays. -/
theorem ofRows_exact_mixed :
    let rows : List ColumnRow := [⟨"z", .regular, -1, "int".toList, .ascending⟩,
      ⟨"ck1", .clustering, 1, "text".toList, .descending⟩, ⟨"pk", .partitionKey, 0, "uuid".toList, .ascending⟩,
      ⟨"a", .static, -1, "\"empty\"".toList, .ascending⟩, ⟨"b", .static, -1, "empty".toList, .ascending⟩,
      ⟨"ck0", .clustering, 0, "timeuuid".toList, .ascending⟩]
    let c : Columns := ⟨[⟨"pk", .native .uuid, .partitionKey, none⟩],
      [⟨"ck0", .native .timeuuid, .clustering, some .ascending⟩,
        ⟨"ck1", .native .text, .clustering, some .descending⟩],
      [⟨"a", .custom "empty", .static, none⟩, ⟨"z", .native .int, .regular, none⟩]⟩
    SortsByName byName ∧ ofRowsBy byName 64 .none "ks" rows = .ok c ∧ Arranged 64 .none "ks" rows c ∧
      ofRowsBy byName 64 .none "ks" rows.reverse = .ok c := by
  intro rows c
  let columns : List (Int × Column) := [(-1, ⟨"z", .native .int, .regular, none⟩),
    (1, ⟨"ck1", .native .text, .clustering, some .descending⟩),
    (0, ⟨"pk", .native .uuid, .partitionKey, none⟩), (-1, ⟨"a", .custom "empty", .static, none⟩),
    (-1, ⟨"b", .empty, .static, none⟩), (0, ⟨"ck0", .native .timeuuid, .clustering, some .ascending⟩)]
  have hcolumns : rows.mapM (Column.ofRow 64 .none "ks") = .ok columns := by decide +kernel
  have hpartition : key .partitionKey columns = .ok c.partitionKey := by
    simp [columns, c, key, byPosition, consecutive]
  have hclustering : key .clustering columns = .ok c.clusteringKey := by
    simp [columns, c, key, byPosition, List.mergeSort, consecutive]
  have houtside : outside (columns.map (·.2)) = c.others.reverse := by rfl
  have hothers : byName c.others.reverse = c.others := by simp [c, byName, List.mergeSort]
  have hrows : ofRowsBy byName 64 .none "ks" rows = .ok c := by
    simp only [ofRowsBy, hcolumns, hpartition, hclustering, houtside, hothers, bind, Except.bind,
      Except.mapError]
  obtain ⟨-, harranged, hperm⟩ := ofRows_exact byName_sorts 64 .none "ks" rows
  exact ⟨byName_sorts, hrows, (harranged c hrows).1,
    (hperm rows.reverse rows.reverse_perm.symm (by decide)).1 byName byName_sorts c hrows⟩

end Columns

end Cql
