import Cql.Proofs.Names
import Cql.Schema.View

/-!
A statement tells of which view it is. Names are written so that they end where they seem to end, whatever
characters they are made of, and the marks between them are none that a name could go on with; so a
statement is taken apart from left to right in one way only, up to the order of the clustering columns.
-/

namespace Cql

namespace Identifier

/-- A character of bare names. -/
def isPlainChar (c : Char) : Bool := c.isLower || c.isDigit || c == '_'

/-- What follows a written name, if it does not look as if the name went on. -/
def Stops (rest : Text) : Prop :=
  ∀ c, rest.head? = some c → c ≠ '"' ∧ isPlainChar c = false

theorem Stops.cons {c : Char} (hquote : c ≠ '"') (hplain : isPlainChar c = false) (rest : Text) :
    Stops (c :: rest) := by
  intro d hd
  cases hd
  exact ⟨hquote, hplain⟩

theorem isPlainChar_of_isPlain {name : String} (h : isPlain name = true) :
    ∀ c ∈ name.toList, isPlainChar c = true := by
  intro c hc
  rcases (isPlain_spec h).2 c hc with hlower | hdigit | rfl
  · simp [isPlainChar, hlower]
  · simp [isPlainChar, hdigit]
  · rfl

theorem plain_head {name : String} (h : isPlain name = true) :
    ∃ c rest, name.toList = c :: rest ∧ isPlainChar c = true := by
  have hall := isPlainChar_of_isPlain h
  cases hname : name.toList with
  | nil => exact absurd hname (isPlain_spec h).1
  | cons c rest =>
    rw [hname] at hall
    exact ⟨c, rest, rfl, hall c List.mem_cons_self⟩

/-- A written name starts with a quote or with a character of bare names. -/
theorem not_stops_display (name : String) (rest : Text) : ¬ Stops (display name ++ rest) := by
  intro hstops
  rw [display_eq] at hstops
  split at hstops
  · next hplain =>
    obtain ⟨c, t, hname, hc⟩ := plain_head hplain
    rw [hname] at hstops
    rw [(hstops c rfl).2] at hc
    cases hc
  · exact (hstops '"' rfl).1 rfl

theorem bare_ne_quoted {name : String} (h : isPlain name = true) (t r s : Text) :
    name.toList ++ r ≠ quoted t ++ s := by
  intro heq
  obtain ⟨c, rest, hname, hc⟩ := plain_head h
  rw [hname] at heq
  rw [(List.cons.inj heq).1] at hc
  cases hc

theorem bare_append_inj {m n : String} (hm : isPlain m = true) (hn : isPlain n = true) {r s : Text}
    (hr : Stops r) (hs : Stops s) (h : m.toList ++ r = n.toList ++ s) : m = n ∧ r = s := by
  have hspan := congrArg (Text.spanWhile isPlainChar) h
  rw [Text.spanWhile_append (isPlainChar_of_isPlain hm) fun c hc => (hr c hc).2,
    Text.spanWhile_append (isPlainChar_of_isPlain hn) fun c hc => (hs c hc).2] at hspan
  obtain ⟨hname, hrest⟩ := Prod.mk.inj hspan
  exact ⟨String.toList_injective hname, hrest⟩

theorem quoted_append_inj {t u r s : Text} (hr : Stops r) (hs : Stops s)
    (h : quoted t ++ r = quoted u ++ s) : t = u ∧ r = s := by
  have hsplit : ∀ t rest : Text, quoted t ++ rest = '"' :: (double t ++ '"' :: rest) := by
    intro t rest
    simp [quoted]
  rw [hsplit, hsplit] at h
  have hinner := (List.cons.inj h).2
  have hafter := congrArg Scanner.afterQuotedName hinner
  rw [Scanner.afterQuotedName_double t fun hq => (hr _ hq).1 rfl,
    Scanner.afterQuotedName_double u fun hq => (hs _ hq).1 rfl] at hafter
  cases hafter
  have hdouble := congrArg undouble (List.append_cancel_right hinner)
  rw [undouble_double, undouble_double] at hdouble
  exact ⟨hdouble, rfl⟩

/-- A written name is known in front of any text with which it does not go on. -/
theorem display_append_inj {m n : String} {r s : Text} (hr : Stops r) (hs : Stops s)
    (h : display m ++ r = display n ++ s) : m = n ∧ r = s := by
  rw [display_eq, display_eq] at h
  split at h
  · next hm =>
    split at h
    · next hn => exact bare_append_inj hm hn hr hs h
    · exact absurd h (bare_ne_quoted hm _ _ _)
  · split at h
    · next hn => exact absurd h.symm (bare_ne_quoted hn _ _ _)
    · obtain ⟨hname, hrest⟩ := quoted_append_inj hr hs h
      exact ⟨String.toList_injective hname, hrest⟩

end Identifier

open Identifier (Stops)

/-! ## Items between commas -/

/-- Items start as names do, and are known in front of any text with which a name does not go on. -/
structure Apart {α : Type} (write : α → Text) : Prop where
  starts : ∀ a rest, ¬ Stops (write a ++ rest)
  known : ∀ {a b : α} {r s : Text}, Stops r → Stops s → write a ++ r = write b ++ s → a = b ∧ r = s

theorem apart_display : Apart Identifier.display :=
  ⟨Identifier.not_stops_display, Identifier.display_append_inj⟩

/-- An order is a word of capitals, and the two words start with different ones. -/
theorem apart_displayOrder : Apart View.Definition.displayOrder := by
  refine ⟨fun (name, order) rest => ?_, ?_⟩
  · rw [View.Definition.displayOrder, List.append_assoc]
    exact Identifier.not_stops_display name _
  · rintro ⟨m, order⟩ ⟨n, other⟩ r s - - h
    simp only [View.Definition.displayOrder, List.append_assoc, List.cons_append] at h
    have hblank : ∀ t, Stops (' ' :: t) := Stops.cons (by decide) (by decide)
    obtain ⟨rfl, hword⟩ := Identifier.display_append_inj (hblank _) (hblank _) h
    cases order <;> cases other <;> simp_all [ClusteringOrder.keyword]

namespace Text

/-- All items but the first one stand behind a comma each. -/
theorem join_cons (separator t : Text) (ts : List Text) :
    join separator (t :: ts) = t ++ ts.flatMap (separator ++ ·) := by
  induction ts generalizing t with
  | nil => simp [join]
  | cons u ts ih => rw [join, ih, List.flatMap_cons, List.append_assoc, List.append_assoc]; simp

end Text

namespace Apart

variable {α : Type} {write : α → Text}

theorem stops_comma (rest : Text) : Stops (',' :: rest) := Stops.cons (by decide) (by decide) rest

/-- Behind an item there is a comma or the end of the list. -/
theorem stops_flatMap (gap : Text) (items : List Text) {rest : Text} (hrest : Stops rest) :
    Stops (items.flatMap (',' :: gap ++ ·) ++ rest) := by
  cases items with
  | nil => exact hrest
  | cons t items => exact stops_comma _

/-- The items behind the first one. -/
theorem flatMap_inj (h : Apart write) (gap : Text) {as bs : List α} {r s : Text} (hr : Stops r)
    (hs : Stops s) (hrcomma : r.head? ≠ some ',') (hscomma : s.head? ≠ some ',')
    (heq : (as.map write).flatMap (',' :: gap ++ ·) ++ r =
      (bs.map write).flatMap (',' :: gap ++ ·) ++ s) : as = bs ∧ r = s := by
  induction as generalizing bs with
  | nil =>
    cases bs with
    | nil => exact ⟨rfl, heq⟩
    | cons b bs =>
      rw [List.map_nil, List.flatMap_nil, List.nil_append] at heq
      exact absurd (by rw [heq]; rfl) hrcomma
  | cons a as ih =>
    cases bs with
    | nil =>
      rw [List.map_nil, List.flatMap_nil, List.nil_append] at heq
      exact absurd (by rw [← heq]; rfl) hscomma
    | cons b bs =>
      simp only [List.map_cons, List.flatMap_cons, List.append_assoc,
        List.append_cancel_left_eq] at heq
      obtain ⟨rfl, hrest⟩ := h.known (stops_flatMap gap _ hr) (stops_flatMap gap _ hs) heq
      obtain ⟨rfl, hend⟩ := ih hrest
      exact ⟨rfl, hend⟩

/-- A list of items, which may be empty. -/
theorem join_inj (h : Apart write) (gap : Text) {as bs : List α} {r s : Text} (hr : Stops r)
    (hs : Stops s) (hrcomma : r.head? ≠ some ',') (hscomma : s.head? ≠ some ',')
    (heq : Text.join (',' :: gap) (as.map write) ++ r = Text.join (',' :: gap) (bs.map write) ++ s) :
    as = bs ∧ r = s := by
  cases as with
  | nil =>
    cases bs with
    | nil => exact ⟨rfl, heq⟩
    | cons b bs =>
      rw [List.map_cons, Text.join_cons, List.append_assoc] at heq
      have hstart : r = write b ++ _ := heq
      exact absurd (hstart ▸ hr) (h.starts b _)
  | cons a as =>
    cases bs with
    | nil =>
      rw [List.map_cons, Text.join_cons, List.append_assoc] at heq
      have hstart : write a ++ _ = s := heq
      exact absurd (hstart ▸ hs) (h.starts a _)
    | cons b bs =>
      rw [List.map_cons, List.map_cons, Text.join_cons, Text.join_cons, List.append_assoc,
        List.append_assoc] at heq
      obtain ⟨rfl, hrest⟩ := h.known (stops_flatMap gap _ hr) (stops_flatMap gap _ hs) heq
      obtain ⟨rfl, hend⟩ := h.flatMap_inj gap hr hs hrcomma hscomma hrest
      exact ⟨rfl, hend⟩

end Apart

namespace View.Definition

variable {v w : Definition} {layout : Layout} {r s : Text}

/-- Clauses are set apart by a blank or by the end of a line. -/
theorem stops_clause (hlayout : layout = .oneLine ∨ layout = .lines) (rest : Text) :
    Stops (layout.clause ++ rest) ∧ (layout.clause ++ rest).head? ≠ some ',' := by
  rcases hlayout with rfl | rfl
  · exact ⟨Stops.cons (by decide) (by decide) rest, by simp [Layout.oneLine]⟩
  · exact ⟨Stops.cons (by decide) (by decide) rest, by simp [Layout.lines]⟩

theorem stops_whereClause (hlayout : layout = .oneLine ∨ layout = .lines) (rest : Text) :
    Stops (v.whereClause layout ++ (layout.clause ++ rest)) := by
  rw [whereClause]
  split
  · exact (stops_clause hlayout rest).1
  · split
    · exact (stops_clause hlayout rest).1
    · rw [List.append_assoc, List.append_assoc]
      exact (stops_clause hlayout _).1

/-- A star is told from a list of columns, also from an empty one. -/
theorem star_ne_columns (hlayout : layout = .oneLine ∨ layout = .lines) (names : List String) :
    [' ', '*'] ++ r ≠ layout.clause ++ (layout.indent ++
      (Text.join (',' :: (layout.clause ++ layout.indent)) (displayNames names) ++
        (layout.clause ++ s))) := by
  intro h
  rcases hlayout with rfl | rfl
  · have hstar : '*' :: r =
        Text.join [',', ' '] (displayNames names) ++ ' ' :: s := (List.cons.inj h).2
    cases names with
    | nil => exact absurd (List.cons.inj hstar).1 (by decide)
    | cons name names =>
      have hstops : Stops ('*' :: r) := Stops.cons (by decide) (by decide) r
      rw [hstar, displayNames, List.map_cons, Text.join_cons, List.append_assoc] at hstops
      exact Identifier.not_stops_display name _ hstops
  · exact absurd (List.cons.inj h).1 (by decide)

theorem selection_inj (hlayout : layout = .oneLine ∨ layout = .lines)
    (h : v.selection layout ++ (layout.clause ++ r) = w.selection layout ++ (layout.clause ++ s)) :
    v.includesAll = w.includesAll ∧
      (v.includesAll = false → v.columns.map (·.name) = w.columns.map (·.name)) ∧ r = s := by
  obtain ⟨hr, hrcomma⟩ := stops_clause hlayout r
  obtain ⟨hs, hscomma⟩ := stops_clause hlayout s
  cases hv : v.includesAll <;> cases hw : w.includesAll <;>
    simp only [selection, hv, hw, if_true, if_false, Bool.false_eq_true, List.append_assoc,
      List.cons_append] at h
  · simp only [List.append_cancel_left_eq] at h
    obtain ⟨hnames, hrest⟩ := apart_display.join_inj _ hr hs hrcomma hscomma h
    exact ⟨rfl, fun _ => hnames, List.append_cancel_left hrest⟩
  · exact absurd h.symm (star_ne_columns hlayout _)
  · exact absurd h (star_ne_columns hlayout _)
  · simp only [List.cons.injEq, true_and, List.nil_append, List.append_cancel_left_eq] at h
    exact ⟨rfl, fun hfalse => absurd hfalse (by decide), h⟩

theorem partition_eq (v : Definition) :
    (∃ name, v.partitionKey = [name] ∧ v.partition = Identifier.display name) ∨
      v.partition = '(' :: (Text.join [',', ' '] (v.partitionKey.map Identifier.display) ++ [')']) := by
  rw [partition, displayNames]
  split
  · next heq =>
    obtain ⟨name, hkey, rfl⟩ := List.map_eq_singleton_iff.1 heq
    exact .inl ⟨name, hkey, rfl⟩
  · exact .inr rfl

/-- A key of one column is told from others by the parenthesis that it lacks. -/
theorem partition_inj (hr : Stops r) (hs : Stops s) (h : v.partition ++ r = w.partition ++ s) :
    v.partitionKey = w.partitionKey ∧ r = s := by
  have hparenthesis : ∀ {c : Char} (t : Text), c = '(' ∨ c = ')' → Stops (c :: t) := by
    rintro c t (rfl | rfl) <;> exact Stops.cons (by decide) (by decide) t
  rcases v.partition_eq with ⟨m, hv, hm⟩ | hm <;> rcases w.partition_eq with ⟨n, hw, hn⟩ | hn <;>
    rw [hm, hn] at h
  · obtain ⟨rfl, hrest⟩ := Identifier.display_append_inj hr hs h
    exact ⟨hv.trans hw.symm, hrest⟩
  · exact absurd (h ▸ hparenthesis _ (.inl rfl)) (Identifier.not_stops_display m r)
  · exact absurd (h ▸ hparenthesis _ (.inl rfl)) (Identifier.not_stops_display n s)
  · simp only [List.cons_append, List.append_assoc, List.cons.injEq, true_and] at h
    obtain ⟨hnames, hrest⟩ := apart_display.join_inj [' '] (hparenthesis _ (.inr rfl))
      (hparenthesis _ (.inr rfl)) (by simp) (by simp) h
    exact ⟨hnames, (List.cons.inj hrest).2⟩

theorem primaryKey_inj (h : v.primaryKey ++ r = w.primaryKey ++ s) :
    v.partitionKey = w.partitionKey ∧ v.clusteringKey = w.clusteringKey ∧ r = s := by
  have hend : ∀ t, Stops (')' :: t) := Stops.cons (by decide) (by decide)
  simp only [primaryKey, displayNames, Text.join_cons, List.cons_append, List.append_assoc,
    List.cons.injEq, true_and] at h
  obtain ⟨hpartition, hrest⟩ := partition_inj (Apart.stops_flatMap [' '] _ (hend _))
    (Apart.stops_flatMap [' '] _ (hend _)) h
  obtain ⟨hclustering, hrest⟩ :=
    apart_display.flatMap_inj [' '] (hend _) (hend _) (by simp) (by simp) hrest
  exact ⟨hpartition, hclustering, (List.cons.inj hrest).2⟩

/-- The order comes before the options. -/
theorem properties_eq (h : v.clusteringKey ≠ []) : ∃ options, v.properties =
    ("CLUSTERING ORDER BY (".toList ++ (Text.join [',', ' '] (v.orders.map displayOrder) ++ [')'])) ::
      options := by
  have horders : v.orders.isEmpty = false := by simpa [orders] using h
  rw [properties, horders, if_neg Bool.false_ne_true, List.append_assoc]
  exact ⟨_, rfl⟩

/-- What stands behind the keys, for two views with the same clustering key. -/
theorem orders_inj (hkey : v.clusteringKey = w.clusteringKey) {front separator : Text}
    (h : (if v.properties.isEmpty then [] else front ++ Text.join separator v.properties) ++ r =
      (if w.properties.isEmpty then [] else front ++ Text.join separator w.properties) ++ s) :
    v.orders = w.orders := by
  by_cases hempty : v.clusteringKey = []
  · simp [orders, hempty, hkey ▸ hempty]
  · obtain ⟨options, hv⟩ := properties_eq hempty
    obtain ⟨others, hw⟩ := properties_eq (hkey ▸ hempty)
    have hend : ∀ t, Stops (')' :: t) := Stops.cons (by decide) (by decide)
    simp only [hv, hw, List.isEmpty_cons, Bool.false_eq_true, if_false, Text.join_cons,
      List.append_assoc, List.append_cancel_left_eq] at h
    exact (apart_displayOrder.join_inj [' '] (hend _) (hend _) (by simp) (by simp) h).1

/-- The words between the parts of a statement are those of every view. -/
theorem exists_words (layout : Layout) : ∃ create opening source key front separator : Text,
    (∀ rest, Stops (opening ++ rest)) ∧ ∀ v : Definition, v.statement layout =
      create ++ (Identifier.display v.keyspace ++ '.' :: (Identifier.display v.name ++ (opening ++
        (v.selection layout ++ (layout.clause ++ (source ++ (Identifier.display v.keyspace ++
          '.' :: (Identifier.display v.base ++ (v.whereClause layout ++ (layout.clause ++ (key ++
            (v.primaryKey ++ ((if v.properties.isEmpty then []
              else front ++ Text.join separator v.properties) ++ [';']))))))))))))) := by
  have hopening : ∀ rest, Stops (" AS".toList ++ rest) := by
    intro rest
    show Stops (' ' :: 'A' :: 'S' :: rest)
    exact Stops.cons (by decide) (by decide) _
  unfold statement
  -- the words themselves are never looked at
  generalize "CREATE MATERIALIZED VIEW ".toList = create
  generalize " AS".toList = as at hopening ⊢
  generalize "SELECT".toList = select
  generalize "FROM ".toList = source
  generalize "PRIMARY KEY ".toList = key
  generalize "WITH ".toList = front
  generalize "AND ".toList = between
  refine ⟨create, as ++ layout.clause ++ select, source, key, layout.clause ++ front,
    layout.clause ++ layout.indent ++ between, ?_, ?_⟩
  · intro rest
    rw [List.append_assoc, List.append_assoc]
    exact hopening _
  · intro v
    simp only [List.append_assoc, List.cons_append]

/-- The statement of a view tells its names, its keys with the order of each clustering column, and the
columns that it selects, or that it selects all of them. The condition must be known, since it stands in
the statement as it is. -/
theorem statement_determines (hlayout : layout = .oneLine ∨ layout = .lines)
    (hcondition : v.condition = w.condition) (h : v.statement layout = w.statement layout) :
    v.keyspace = w.keyspace ∧ v.name = w.name ∧ v.base = w.base ∧
      v.partitionKey = w.partitionKey ∧ v.clusteringKey = w.clusteringKey ∧ v.orders = w.orders ∧
      v.includesAll = w.includesAll ∧
      (v.includesAll = false → v.columns.map (·.name) = w.columns.map (·.name)) := by
  obtain ⟨create, opening, source, key, front, separator, hopening, hstatement⟩ := exists_words layout
  have hpoint : ∀ t, Stops ('.' :: t) := Stops.cons (by decide) (by decide)
  have hwhere : v.whereClause layout = w.whereClause layout := by
    rw [whereClause, whereClause, hcondition]
  rw [hstatement, hstatement, List.append_cancel_left_eq] at h
  obtain ⟨hkeyspace, h⟩ := Identifier.display_append_inj (hpoint _) (hpoint _) h
  obtain ⟨hname, h⟩ :=
    Identifier.display_append_inj (hopening _) (hopening _) (List.cons.inj h).2
  obtain ⟨hall, hcolumns, h⟩ := selection_inj hlayout (List.append_cancel_left h)
  rw [hkeyspace, List.append_cancel_left_eq, List.append_cancel_left_eq] at h
  obtain ⟨hbase, h⟩ := Identifier.display_append_inj (stops_whereClause hlayout _)
    (stops_whereClause hlayout _) (List.cons.inj h).2
  rw [hwhere, List.append_cancel_left_eq, List.append_cancel_left_eq,
    List.append_cancel_left_eq] at h
  obtain ⟨hpartition, hclustering, h⟩ := primaryKey_inj h
  exact ⟨hkeyspace, hname, hbase, hpartition, hclustering, orders_inj hclustering h, hall, hcolumns⟩

/-- Views that differ in the type of a column only have the same statement; those whose names are cut
elsewhere do not. -/
theorem statement_determines_cut :
    let v (keyspace name : String) (type : NativeType) : Definition :=
      ⟨keyspace, name, "a.\"b", false, some "\"c, d\" IS NOT NULL", ["c, d"], [") WITH"],
        [⟨"c, d", .native type, .partitionKey, none⟩,
          ⟨") WITH", .native .int, .clustering, some .descending⟩], none⟩
    (v "x.y" "z" .int).statement .lines = (v "x.y" "z" .text).statement .lines ∧
      (v "x.y" "z" .int).orders = [(") WITH", .descending)] ∧
      (v "x.y" "z" .int).orders = (v "x.y" "z" .text).orders ∧
      (v "x.y" "z" .int).statement .lines ≠ (v "x" "y.z" .int).statement .lines := by
  intro v
  have h : (v "x.y" "z" .int).statement .lines = (v "x.y" "z" .text).statement .lines := by rfl
  obtain ⟨-, -, -, -, -, horders, -⟩ := statement_determines (.inr rfl) (by rfl) h
  refine ⟨h, by rfl, horders, fun hcut => ?_⟩
  obtain ⟨hkeyspace, -⟩ := statement_determines (.inr rfl) (by rfl) hcut
  exact absurd hkeyspace (by decide)

end View.Definition

end Cql
