import Cql.Proofs.BracketedLiterals
import Cql.Proofs.Dictionary
import Cql.Proofs.TemporalLiterals
import Cql.Schema.Options

/-!
Options and their literals. Whatever options were read from, their literals stand under different names,
in the order of these, and the same options are read from them again.
-/

namespace Cql.TableOptions

/-! ## Options with a field of their own -/

/-- The options that have a field of their own. -/
inductive Known where
  | comment | speculativeRetry | defaultTimeToLive | gcGraceSeconds | bloomFilterFpChance
  | crcCheckChance | caching | compaction | compression
  deriving DecidableEq

/-- What a field holds. -/
inductive Kind where
  | text | seconds | chance | map

namespace Kind

def Content : Kind → Type
  | text => Option String
  | seconds => Option Int32
  | chance => Option UInt64
  | map => Dictionary String

/-- The content of a field that is not set. -/
def unset : (k : Kind) → k.Content
  | text | seconds | chance => none
  | map => Dictionary.empty

def read : (k : Kind) → Text → Except Fault k.Content
  | text, t => (Codec.string .text).parse t
  | seconds, t => Codec.int.parse t
  | chance, t => Codec.double.parse t
  | map, t => readMap t

/-- The literal of a content, if it is set. -/
def print? : (k : Kind) → k.Content → Option (Except Fault Text)
  | text, o => o.map (Codec.string .text).print
  | seconds, o => o.map Codec.int.print
  | chance, o => o.map Codec.double.print
  | map, d => if d.isEmpty then none else some (printMap d)

/-- Equality of numbers up to the bits of those that are none. -/
def SameNumber (a b : UInt64) : Prop :=
  a = b ∨ BinaryFormat.double.isNaN a.toNat = true ∧ BinaryFormat.double.isNaN b.toNat = true

def Alike : (k : Kind) → k.Content → k.Content → Prop
  | text, a, b => a = b
  | seconds, a, b => a = b
  | chance, a, b => Option.Rel SameNumber a b
  | map, a, b => a = b

theorem alike_refl (k : Kind) (c : k.Content) : k.Alike c c := by
  cases k with
  | text | seconds | map => exact rfl
  | chance =>
    cases c with
    | none => exact .none
    | some bits => exact .some (.inl rfl)

end Kind

namespace Known

def all : List Known :=
  [comment, speculativeRetry, defaultTimeToLive, gcGraceSeconds, bloomFilterFpChance, crcCheckChance,
    caching, compaction, compression]

def name : Known → String
  | comment => "comment"
  | speculativeRetry => "speculative_retry"
  | defaultTimeToLive => "default_time_to_live"
  | gcGraceSeconds => "gc_grace_seconds"
  | bloomFilterFpChance => "bloom_filter_fp_chance"
  | crcCheckChance => "crc_check_chance"
  | caching => "caching"
  | compaction => "compaction"
  | compression => "compression"

def kind : Known → Kind
  | comment | speculativeRetry => .text
  | defaultTimeToLive | gcGraceSeconds => .seconds
  | bloomFilterFpChance | crcCheckChance => .chance
  | caching | compaction | compression => .map

def get : (k : Known) → TableOptions → k.kind.Content
  | comment, o => o.comment
  | speculativeRetry, o => o.speculativeRetry
  | defaultTimeToLive, o => o.defaultTimeToLive
  | gcGraceSeconds, o => o.gcGraceSeconds
  | bloomFilterFpChance, o => o.bloomFilterFpChance
  | crcCheckChance, o => o.crcCheckChance
  | caching, o => o.caching
  | compaction, o => o.compaction
  | compression, o => o.compression

def put : (k : Known) → TableOptions → k.kind.Content → TableOptions
  | comment, o, c => { o with comment := c }
  | speculativeRetry, o, c => { o with speculativeRetry := c }
  | defaultTimeToLive, o, c => { o with defaultTimeToLive := c }
  | gcGraceSeconds, o, c => { o with gcGraceSeconds := c }
  | bloomFilterFpChance, o, c => { o with bloomFilterFpChance := c }
  | crcCheckChance, o, c => { o with crcCheckChance := c }
  | caching, o, c => { o with caching := c }
  | compaction, o, c => { o with compaction := c }
  | compression, o, c => { o with compression := c }

theorem mem_all (k : Known) : k ∈ all := by
  cases k <;> decide

theorem nodup_all : all.Nodup := by decide

theorem name_injective {k l : Known} (h : k.name = l.name) : k = l := by
  cases k <;> cases l <;> first | rfl | exact absurd h (by decide)

theorem get_put (k : Known) (o : TableOptions) (c : k.kind.Content) : k.get (k.put o c) = c := by
  cases k <;> rfl

theorem get_put_other {k l : Known} (h : k ≠ l) (o : TableOptions) (c : l.kind.Content) :
    k.get (l.put o c) = k.get o := by
  cases k <;> cases l <;> first | rfl | exact absurd rfl h

theorem other_put (k : Known) (o : TableOptions) (c : k.kind.Content) : (k.put o c).other = o.other := by
  cases k <;> rfl

theorem get_empty (k : Known) : k.get .empty = k.kind.unset := by
  cases k <;> rfl

end Known

/-- A name that no option with a field of its own has. -/
def Unknown (name : String) : Prop := ∀ k : Known, k.name ≠ name

theorem known_or_unknown (name : String) : (∃ k : Known, k.name = name) ∨ Unknown name := by
  by_cases h : ∃ k : Known, k.name = name
  · exact .inl h
  · exact .inr fun k hk => h ⟨k, hk⟩

theorem set_known (o : TableOptions) (k : Known) (literal : String) :
    o.set k.name literal = (k.kind.read literal.toList).map (k.put o) := by
  cases k <;> simp only [set, Known.name, Known.kind, Kind.read]
  · cases (Codec.string .text).parse literal.toList <;> rfl
  · cases (Codec.string .text).parse literal.toList <;> rfl
  · cases Codec.int.parse literal.toList <;> rfl
  · cases Codec.int.parse literal.toList <;> rfl
  · cases Codec.double.parse literal.toList <;> rfl
  · cases Codec.double.parse literal.toList <;> rfl
  · cases readMap literal.toList <;> rfl
  · cases readMap literal.toList <;> rfl
  · cases readMap literal.toList <;> rfl

theorem set_unknown (o : TableOptions) {name : String} (h : Unknown name) (literal : String) :
    o.set name literal = .ok { o with other := o.other.insert name literal } := by
  unfold set
  dsimp only
  split
  · exact absurd rfl (h .comment)
  · exact absurd rfl (h .speculativeRetry)
  · exact absurd rfl (h .defaultTimeToLive)
  · exact absurd rfl (h .gcGraceSeconds)
  · exact absurd rfl (h .bloomFilterFpChance)
  · exact absurd rfl (h .crcCheckChance)
  · exact absurd rfl (h .caching)
  · exact absurd rfl (h .compaction)
  · exact absurd rfl (h .compression)
  · rfl

/-- The entry of an option among the literals. -/
def Known.entry? (k : Known) (o : TableOptions) : Option (String × Except Fault Text) :=
  (k.kind.print? (k.get o)).map fun literal => (k.name, literal)

theorem known_eq (o : TableOptions) : o.known = Known.all.flatMap fun k => (k.entry? o).toList := by
  have hone : ∀ {α : Type} (name : String) (codec : Codec α) (value : Option α),
      (value.map fun a => (name, codec.print a)) =
        (value.map codec.print).map fun literal => (name, literal) := by
    intro α name codec value
    cases value <;> rfl
  have hmap : ∀ (name : String) (d : Dictionary String),
      (if d.isEmpty then [] else [(name, printMap d)]) =
        ((Kind.map.print? d).map fun literal => (name, literal)).toList := by
    intro name d
    show _ = ((if d.isEmpty then none else some (printMap d)).map _).toList
    split <;> rfl
  simp only [known, Known.all, List.flatMap_cons, List.flatMap_nil, List.append_nil, hone, hmap,
    ← List.append_assoc]
  rfl

/-- Puts the literal of an option in its place, if it has one. -/
def putLiteral (d : Dictionary String) (entry : String × Except Fault Text) : Dictionary String :=
  match entry.2 with
  | .ok t => d.insert entry.1 (String.ofList t)
  | .error _ => d

theorem literals_eq (o : TableOptions) :
    o.literals = (Known.all.flatMap fun k => (k.entry? o).toList).foldl putLiteral o.other := by
  rw [literals, known_eq]
  rfl

theorem get?_putLiteral_ne {d : Dictionary String} {entry : String × Except Fault Text} {name : String}
    (h : entry.1 ≠ name) : (putLiteral d entry).get? name = d.get? name := by
  rw [putLiteral]
  split
  · rw [Dictionary.get?_insert, if_neg h]
  · rfl

/-! ## Literals -/

section Literals

variable (o : TableOptions)

theorem get?_entry_ne {k : Known} {name : String} (h : k.name ≠ name) (d : Dictionary String) :
    ((k.entry? o).toList.foldl putLiteral d).get? name = d.get? name := by
  rw [Known.entry?]
  cases k.kind.print? (k.get o) with
  | none => rfl
  | some literal => exact get?_putLiteral_ne h

theorem get?_entry (k : Known) (d : Dictionary String) :
    ((k.entry? o).toList.foldl putLiteral d).get? k.name =
      match k.kind.print? (k.get o) with
      | some (.ok t) => some (String.ofList t)
      | _ => d.get? k.name := by
  rw [Known.entry?]
  cases k.kind.print? (k.get o) with
  | none => rfl
  | some literal =>
    cases literal with
    | error fault => rfl
    | ok t => exact (Dictionary.get?_insert _ _ _ _).trans (if_pos rfl)

theorem get?_foldl_putLiteral_ne {ks : List Known} {name : String} (h : ∀ k ∈ ks, k.name ≠ name)
    (d : Dictionary String) :
    ((ks.flatMap fun k => (k.entry? o).toList).foldl putLiteral d).get? name = d.get? name := by
  induction ks generalizing d with
  | nil => rfl
  | cons k ks ih =>
    obtain ⟨hk, hks⟩ := List.forall_mem_cons.1 h
    rw [List.flatMap_cons, List.foldl_append, ih hks, get?_entry_ne o hk]

theorem get?_foldl_putLiteral {ks : List Known} (hnodup : ks.Nodup) {k : Known} (hk : k ∈ ks)
    (d : Dictionary String) :
    ((ks.flatMap fun k => (k.entry? o).toList).foldl putLiteral d).get? k.name =
      match k.kind.print? (k.get o) with
      | some (.ok t) => some (String.ofList t)
      | _ => d.get? k.name := by
  induction ks generalizing d with
  | nil => exact absurd hk List.not_mem_nil
  | cons l ks ih =>
    obtain ⟨hl, hnodup⟩ := List.nodup_cons.1 hnodup
    rw [List.flatMap_cons, List.foldl_append]
    by_cases heq : k = l
    · -- no later option has this name
      subst heq
      have hlater : ∀ m ∈ ks, m.name ≠ k.name := fun m hm hname =>
        hl (Known.name_injective hname ▸ hm)
      rw [get?_foldl_putLiteral_ne o hlater, get?_entry]
    · have hname : l.name ≠ k.name := fun h => heq (Known.name_injective h).symm
      rw [ih hnodup ((List.mem_cons.1 hk).resolve_left heq), get?_entry_ne o hname]

theorem get?_literals_known (k : Known) : o.literals.get? k.name =
    match k.kind.print? (k.get o) with
    | some (.ok t) => some (String.ofList t)
    | _ => o.other.get? k.name := by
  rw [literals_eq, get?_foldl_putLiteral o Known.nodup_all k.mem_all]

theorem get?_literals_unknown {name : String} (h : Unknown name) :
    o.literals.get? name = o.other.get? name := by
  rw [literals_eq, get?_foldl_putLiteral_ne o fun k _ => h k]

end Literals

/-! ## Reading -/

/-- Reads one option after others. -/
def readNext (o : TableOptions) (entry : String × String) : Except OptionFault TableOptions :=
  (o.set entry.1 entry.2).mapError fun f => ⟨entry.1, f⟩

theorem read_eq (entries : List (String × String)) : read entries = entries.foldlM readNext empty := rfl

/-- No option with a field of its own is among the others. -/
def KeepsApart (o : TableOptions) : Prop := ∀ k : Known, o.other.get? k.name = none

theorem readNext_known {o : TableOptions} {k : Known} {literal : String} {c : k.kind.Content}
    (h : k.kind.read literal.toList = .ok c) : readNext o (k.name, literal) = .ok (k.put o c) := by
  rw [readNext, set_known, h]
  rfl

theorem readNext_unknown {o : TableOptions} {name : String} (h : Unknown name) (literal : String) :
    readNext o (name, literal) = .ok { o with other := o.other.insert name literal } := by
  rw [readNext, set_unknown o h]
  rfl

theorem readNext_keepsApart {o o' : TableOptions} {entry : String × String} (ho : o.KeepsApart)
    (h : readNext o entry = .ok o') : o'.KeepsApart := by
  obtain ⟨name, literal⟩ := entry
  rcases known_or_unknown name with ⟨k, rfl⟩ | hname
  · rw [readNext, set_known, mapError_ok_iff, map_ok_iff] at h
    obtain ⟨c, -, rfl⟩ := h
    intro l
    rw [k.other_put, ho l]
  · rw [readNext_unknown hname] at h
    cases h
    intro l
    exact (Dictionary.get?_insert _ _ _ _).trans ((if_neg (hname l).symm).trans (ho l))

theorem foldlM_keepsApart {raw : List (String × String)} {o o' : TableOptions} (ho : o.KeepsApart)
    (h : raw.foldlM readNext o = .ok o') : o'.KeepsApart := by
  induction raw generalizing o with
  | nil =>
    cases h
    exact ho
  | cons entry raw ih =>
    obtain ⟨next, hnext, h⟩ := bind_ok_iff.1 h
    exact ih (readNext_keepsApart ho hnext) h

theorem read_keepsApart {raw : List (String × String)} {o : TableOptions} (h : read raw = .ok o) :
    o.KeepsApart := by
  rw [read_eq] at h
  exact foldlM_keepsApart (fun k => Dictionary.get?_empty k.name) h

/-- What is read of entries with different names. -/
structure ReadOf (entries : List (String × String)) (before after : TableOptions) : Prop where
  known : ∀ (k : Known) literal c, (k.name, literal) ∈ entries → k.kind.read literal.toList = .ok c →
    k.get after = c
  knownKept : ∀ k : Known, k.name ∉ entries.map (·.1) → k.get after = k.get before
  unknown : ∀ name literal, Unknown name → (name, literal) ∈ entries → after.other.get? name = some literal
  unknownKept : ∀ name, name ∉ entries.map (·.1) → after.other.get? name = before.other.get? name

theorem ReadOf.cons {entry : String × String} {entries : List (String × String)}
    {before next after : TableOptions} (hfirst : ReadOf [entry] before next)
    (hname : entry.1 ∉ entries.map (·.1)) (hlater : ReadOf entries next after) :
    ReadOf (entry :: entries) before after := by
  constructor
  · intro k literal c hmem hc
    rcases List.mem_cons.1 hmem with rfl | hmem
    · rw [hlater.knownKept k hname]
      exact hfirst.known k literal c List.mem_cons_self hc
    · exact hlater.known k literal c hmem hc
  · intro k hk
    rw [List.map_cons, List.mem_cons, not_or] at hk
    rw [hlater.knownKept k hk.2]
    exact hfirst.knownKept k (by simpa using hk.1)
  · intro name literal hunknown hmem
    rcases List.mem_cons.1 hmem with rfl | hmem
    · rw [hlater.unknownKept name hname]
      exact hfirst.unknown name literal hunknown List.mem_cons_self
    · exact hlater.unknown name literal hunknown hmem
  · intro name hmem
    rw [List.map_cons, List.mem_cons, not_or] at hmem
    rw [hlater.unknownKept name hmem.2]
    exact hfirst.unknownKept name (by simpa using hmem.1)

theorem readOf_known {k : Known} {literal : String} {c : k.kind.Content}
    (h : k.kind.read literal.toList = .ok c) (o : TableOptions) :
    ReadOf [(k.name, literal)] o (k.put o c) := by
  constructor
  · intro l other d hmem hd
    obtain ⟨hname, rfl⟩ := Prod.mk.inj (List.mem_singleton.1 hmem)
    cases Known.name_injective hname
    rw [h] at hd
    cases hd
    exact k.get_put o c
  · intro l hl
    refine Known.get_put_other ?_ o c
    rintro rfl
    exact hl List.mem_cons_self
  · intro name other hunknown hmem
    exact absurd (congrArg Prod.fst (List.mem_singleton.1 hmem)).symm (hunknown k)
  · exact fun name _ => by rw [k.other_put]

theorem readOf_unknown {name : String} (hname : Unknown name) (literal : String) (o : TableOptions) :
    ReadOf [(name, literal)] o { o with other := o.other.insert name literal } := by
  constructor
  · intro l other d hmem _
    exact absurd (congrArg Prod.fst (List.mem_singleton.1 hmem)) (hname l)
  · intro l _
    cases l <;> rfl
  · intro name' other _ hmem
    cases List.mem_singleton.1 hmem
    exact (Dictionary.get?_insert _ _ _ _).trans (if_pos rfl)
  · intro name' hmem
    exact (Dictionary.get?_insert _ _ _ _).trans (if_neg fun heq => hmem (by simp [heq]))

/-- Entries with different names do not disturb each other. -/
theorem exists_readOf {entries : List (String × String)} (hnodup : (entries.map (·.1)).Nodup)
    (hread : ∀ (k : Known) literal, (k.name, literal) ∈ entries →
      ∃ c, k.kind.read literal.toList = .ok c) (o : TableOptions) :
    ∃ o', entries.foldlM readNext o = .ok o' ∧ ReadOf entries o o' := by
  induction entries generalizing o with
  | nil =>
    refine ⟨o, rfl, ?_, fun _ _ => rfl, ?_, fun _ _ => rfl⟩
    · exact fun _ _ _ h => absurd h List.not_mem_nil
    · exact fun _ _ _ h => absurd h List.not_mem_nil
  | cons entry entries ih =>
    obtain ⟨name, literal⟩ := entry
    obtain ⟨hname, hnodup⟩ := List.nodup_cons.1 hnodup
    obtain ⟨next, hnext, hfirst⟩ :
        ∃ next, readNext o (name, literal) = .ok next ∧ ReadOf [(name, literal)] o next := by
      rcases known_or_unknown name with ⟨k, rfl⟩ | hunknown
      · obtain ⟨c, hc⟩ := hread k literal List.mem_cons_self
        exact ⟨_, readNext_known hc, readOf_known hc o⟩
      · exact ⟨_, readNext_unknown hunknown literal, readOf_unknown hunknown literal o⟩
    obtain ⟨o', hrun, hlater⟩ :=
      ih hnodup (fun k literal h => hread k literal (List.mem_cons_of_mem _ h)) next
    exact ⟨o', by rw [List.foldlM_cons, hnext, ok_bind, hrun], hfirst.cons hname hlater⟩

/-! ## Single options -/

theorem text_readsBack (s : String) :
    (Codec.ofNative .text).ReadsBack (some (.text s)) (some (.text s)) := by
  have hencode : (Codec.ofNative .text).encode .v4 (.text s) = .ok (Utf8.encode s.toList) := rfl
  exact Codec.ofNative_readsBack hencode

/-- Only the same text is like a text. -/
theorem eq_of_alike_text {s : String} {v : Value} (h : v.Alike (.text s)) : v = .text s := by
  cases h
  rfl

theorem eq_of_alike_texts {vs : List Value} {ss : List String}
    (h : List.Forall₂ Value.Alike vs (ss.map .text)) : vs = ss.map .text := by
  rw [← List.forall₂_eq_eq_eq]
  rw [List.forall₂_map_right_iff] at h ⊢
  exact h.imp fun v s hv => eq_of_alike_text hv

/-- The entries of a map of texts. -/
def texts (entries : List (String × String)) : List (Value × Value) :=
  entries.map fun (k, v) => (.text k, .text v)

theorem eq_of_alike_map {entries : List (String × String)} {v : Value}
    (h : v.Alike (.map (texts entries))) : v = .map (texts entries) := by
  cases h with
  | refl => rfl
  | @map vs _ hkeys hvalues =>
    have hfst : (texts entries).map (·.1) = (entries.map (·.1)).map .text := by simp [texts]
    have hsnd : (texts entries).map (·.2) = (entries.map (·.2)).map .text := by simp [texts]
    rw [hfst] at hkeys
    rw [hsnd] at hvalues
    rw [← List.zip_unzip vs, ← List.zip_unzip (texts entries), List.unzip_fst, List.unzip_snd,
      List.unzip_fst, List.unzip_snd, eq_of_alike_texts hkeys, eq_of_alike_texts hvalues, hfst, hsnd]

theorem mapM_textEntry (entries : List (String × String)) :
    (texts entries).mapM textEntry = some entries := by
  induction entries with
  | nil => rfl
  | cons e entries ih =>
    rw [texts, List.map_cons, ← texts, List.mapM_cons, ih]
    rfl

/-- A map is read back from its literal, whatever its strings contain. -/
theorem readMap_print (d : Dictionary String) : ∃ t, printMap d = .ok t ∧ readMap t = .ok d := by
  have hentries : List.Forall₂ (fun v w : Value × Value =>
      (Codec.ofNative .text).ReadsBack (some v.1) (some w.1) ∧
        (Codec.ofNative .text).ReadsBack (some v.2) (some w.2)) (texts d.entries) (texts d.entries) := by
    rw [texts, List.forall₂_map_left_iff, List.forall₂_map_right_iff, List.forall₂_same]
    exact fun e _ => ⟨text_readsBack e.1, text_readsBack e.2⟩
  obtain ⟨t, u, hprint, hparse, halike⟩ := (Codec.map_readsBack false hentries).read
  refine ⟨t, hprint, ?_⟩
  rw [eq_of_alike_map halike] at hparse
  have htext : textMap.parse t = .ok (some (.map (texts d.entries))) := hparse
  rw [readMap, htext, ok_bind]
  dsimp only
  rw [mapM_textEntry]
  exact congrArg _ (Dictionary.ofList_entries d)

theorem text_read_print (s : String) :
    (Codec.string .text).parse (Quoted.quote s.toList) = .ok (some s) := by
  refine Codec.parse_quote ?_
  have hascii : Codec.checkAscii .text s.toList = .ok s.toList := if_neg Bool.false_ne_true
  simp only [Codec.string, Codec.unquoted, Quoted.unquote_quote, Codec.orFail, ok_bind, hascii,
    String.ofList_toList]

theorem seconds_read_print (i : Int32) :
    Codec.int.parse (Integer.print i.toInt) = .ok (some i) := by
  refine Codec.parse_number ?_
  have hread : Integer.readWithin (-2 ^ 31) (2 ^ 31 - 1) (Integer.print i.toInt) = some i.toInt :=
    Integer.readWithin_print i.le_toInt (Int.le_sub_one_of_lt i.toInt_lt)
  simp only [Codec.int, Codec.number, hread, Option.map_some, Codec.orFail, Int32.ofInt_toInt]

theorem chance_read_print (bits : UInt64) : ∃ read : UInt64,
    Codec.double.parse (Floating.print .double bits.toNat) = .ok (some read) ∧
      Kind.SameNumber read bits := by
  obtain ⟨htoken, hnull⟩ := Codec.floating_token .double bits.toNat
  obtain ⟨-, -, read, hread, halike⟩ := Codec.double_printed bits
  have hparse : Codec.double.parse (Floating.print .double bits.toNat) = .ok (some read) := by
    rw [Codec.parse_token htoken hnull]
    exact congrArg _ hread
  refine ⟨read, hparse, ?_⟩
  cases halike with
  | refl => exact .inl rfl
  | double hleft hright => exact .inr ⟨hleft, hright⟩

/-- What an option holds is read back from its literal, and it has a literal if it is set. -/
theorem Kind.read_print (k : Kind) (c : k.Content) :
    (k.print? c = none ∧ c = k.unset) ∨
      ∃ t c', k.print? c = some (.ok t) ∧ k.read t = .ok c' ∧ k.Alike c' c := by
  cases k with
  | text =>
    cases c with
    | none => exact .inl ⟨rfl, rfl⟩
    | some s => exact .inr ⟨_, some s, rfl, text_read_print s, rfl⟩
  | seconds =>
    cases c with
    | none => exact .inl ⟨rfl, rfl⟩
    | some i => exact .inr ⟨_, some i, rfl, seconds_read_print i, rfl⟩
  | chance =>
    cases c with
    | none => exact .inl ⟨rfl, rfl⟩
    | some bits =>
      obtain ⟨read, hread, hsame⟩ := chance_read_print bits
      exact .inr ⟨_, some read, rfl, hread, .some hsame⟩
  | map =>
    cases hempty : c.isEmpty with
    | true =>
      refine .inl ⟨if_pos hempty, ?_⟩
      obtain ⟨entries, sorted⟩ := c
      cases List.isEmpty_iff.1 hempty
      rfl
    | false =>
      obtain ⟨t, hprint, hread⟩ := readMap_print c
      refine .inr ⟨t, c, ?_, hread, rfl⟩
      have hset : Kind.map.print? c = some (printMap c) :=
        if_neg (by rw [hempty]; exact Bool.false_ne_true)
      rw [hset, hprint]

/-! ## All options -/

/-- The same options, up to the bits of chances that are no numbers. -/
structure Alike (o p : TableOptions) : Prop where
  comment : o.comment = p.comment
  speculativeRetry : o.speculativeRetry = p.speculativeRetry
  defaultTimeToLive : o.defaultTimeToLive = p.defaultTimeToLive
  gcGraceSeconds : o.gcGraceSeconds = p.gcGraceSeconds
  bloomFilterFpChance : Option.Rel Kind.SameNumber o.bloomFilterFpChance p.bloomFilterFpChance
  crcCheckChance : Option.Rel Kind.SameNumber o.crcCheckChance p.crcCheckChance
  caching : o.caching = p.caching
  compaction : o.compaction = p.compaction
  compression : o.compression = p.compression
  other : o.other = p.other

theorem alike_of_known {o p : TableOptions} (hknown : ∀ k : Known, k.kind.Alike (k.get o) (k.get p))
    (hother : o.other = p.other) : o.Alike p :=
  ⟨hknown .comment, hknown .speculativeRetry, hknown .defaultTimeToLive, hknown .gcGraceSeconds,
    hknown .bloomFilterFpChance, hknown .crcCheckChance, hknown .caching, hknown .compaction,
    hknown .compression, hother⟩

section Literals

variable {o : TableOptions}

theorem mem_literals {k : Known} {t : Text} (h : k.kind.print? (k.get o) = some (.ok t)) :
    (k.name, String.ofList t) ∈ o.literals.entries := by
  rw [Dictionary.mem_entries_iff, get?_literals_known, h]

/-- The literals of options that keep apart can all be read. -/
theorem exists_read_literal (ho : o.KeepsApart) {k : Known} {literal : String}
    (h : (k.name, literal) ∈ o.literals.entries) : ∃ c, k.kind.read literal.toList = .ok c := by
  rw [Dictionary.mem_entries_iff, get?_literals_known] at h
  rcases k.kind.read_print (k.get o) with ⟨hprint, -⟩ | ⟨t, c, hprint, hread, -⟩
  · rw [hprint] at h
    cases (ho k).symm.trans h
  · rw [hprint] at h
    cases h
    exact ⟨c, by rw [String.toList_ofList, hread]⟩

theorem known_alike_of_readOf {o' : TableOptions} (ho : o.KeepsApart)
    (h : ReadOf o.literals.entries empty o') (k : Known) : k.kind.Alike (k.get o') (k.get o) := by
  rcases k.kind.read_print (k.get o) with ⟨hprint, hunset⟩ | ⟨t, c, hprint, hread, halike⟩
  · have hnone : o.literals.get? k.name = none := by
      rw [get?_literals_known, hprint]
      exact ho k
    rw [h.knownKept k (Dictionary.get?_eq_none_iff.1 hnone), k.get_empty, hunset]
    exact k.kind.alike_refl _
  · rw [h.known k _ c (mem_literals hprint) (by rw [String.toList_ofList, hread])]
    exact halike

theorem other_eq_of_readOf {o' : TableOptions} (ho : o.KeepsApart) (ho' : o'.KeepsApart)
    (h : ReadOf o.literals.entries empty o') : o'.other = o.other := by
  refine Dictionary.ext_get? fun name => ?_
  rcases known_or_unknown name with ⟨k, rfl⟩ | hunknown
  · rw [ho k, ho' k]
  · have hget := get?_literals_unknown o hunknown
    cases hother : o.other.get? name with
    | none => exact h.unknownKept name (Dictionary.get?_eq_none_iff.1 (hget.trans hother))
    | some literal =>
      exact h.unknown name literal hunknown (Dictionary.mem_entries_iff.2 (hget.trans hother))

end Literals

/-- Options survive their literals: those of options that were read, whatever names were repeated and in
whatever order they came, stand in strictly increasing order of the names and are read as the same
options. -/
theorem read_literals {raw : List (String × String)} {o : TableOptions} (h : read raw = .ok o) :
    o.literals.entries.Pairwise (fun a b => a.1 < b.1) ∧
      ∃ o', read o.literals.entries = .ok o' ∧ o'.Alike o := by
  have hapart := read_keepsApart h
  obtain ⟨o', hread, hof⟩ :=
    exists_readOf o.literals.nodup_keys (fun k _ => exists_read_literal hapart) empty
  refine ⟨o.literals.sorted, o', hread, ?_⟩
  exact alike_of_known (known_alike_of_readOf hapart hof)
    (other_eq_of_readOf hapart (read_keepsApart hread) hof)

/-- Names and keys that are repeated, quotes and brackets in the strings, an absent value, an empty map
and a chance that is no number. -/
def repeated : List (String × String) :=
  [("zeta", "verbatim"), ("comment", "'first'"),
    ("compaction", "\x7b'class': 'a''b', '[': '\x7d', 'class': '\x7b'\x7d"),
    ("bloom_filter_fp_chance", "NaN"), ("comment", "'it''s'"), ("gc_grace_seconds", "null"),
    ("default_time_to_live", "-86400"),
    ("alpha", "x"), ("caching", "\x7b\x7d"), ("zeta", "0")]

theorem read_literals_repeated : ∃ o, read repeated = .ok o ∧
    o.literals.entries = [("alpha", "x"), ("bloom_filter_fp_chance", "NaN"), ("comment", "'it''s'"),
      ("compaction", "\x7b'[':'\x7d','class':'\x7b'\x7d"), ("default_time_to_live", "-86400"),
      ("zeta", "0")] ∧
    o.literals.entries.Pairwise (fun a b => a.1 < b.1) ∧
    ∃ o', read o.literals.entries = .ok o' ∧ o'.Alike o := by
  have hentries : (read repeated).toOption.map (·.literals.entries) =
      some [("alpha", "x"), ("bloom_filter_fp_chance", "NaN"), ("comment", "'it''s'"),
        ("compaction", "\x7b'[':'\x7d','class':'\x7b'\x7d"), ("default_time_to_live", "-86400"),
        ("zeta", "0")] := by
    decide +kernel
  cases h : read repeated with
  | error fault =>
    rw [h] at hentries
    cases hentries
  | ok o =>
    rw [h] at hentries
    exact ⟨o, rfl, Option.some.inj hentries, read_literals h⟩

end Cql.TableOptions
