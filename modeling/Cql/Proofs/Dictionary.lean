import Cql.Dictionary

/-!
A dictionary is what it answers: dictionaries that answer the same to every key are equal.
-/

namespace Cql.Dictionary

variable {α : Type}

theorem mem_entries_iff {d : Dictionary α} {key : String} {value : α} :
    (key, value) ∈ d.entries ↔ d.get? key = some value := by
  obtain ⟨entries, sorted⟩ := d
  simp only [get?]
  induction entries with
  | nil => simp
  | cons e rest ih =>
    obtain ⟨hhead, htail⟩ := List.pairwise_cons.1 sorted
    rw [List.mem_cons, List.find?_cons]
    by_cases he : e.1 = key
    · -- the key stands here, and therefore not in the rest
      have hrest : (key, value) ∉ rest := fun h => absurd (hhead _ h) (he ▸ String.lt_irrefl _)
      simp [he, hrest, Prod.ext_iff, eq_comm]
    · have hne : (key, value) ≠ e := fun h => he (h ▸ rfl)
      have hkey : (e.1 == key) = false := beq_false_of_ne he
      simp only [hne, false_or, hkey, ih htail]

theorem get?_eq_none_iff {d : Dictionary α} {key : String} :
    d.get? key = none ↔ key ∉ d.entries.map (·.1) := by
  simp only [get?, Option.map_eq_none_iff, List.find?_eq_none, beq_iff_eq, List.mem_map, not_exists,
    not_and]

theorem nodup_keys (d : Dictionary α) : (d.entries.map (·.1)).Nodup := by
  refine List.pairwise_map.2 (d.sorted.imp ?_)
  intro a b hlt heq
  exact String.lt_irrefl _ (heq ▸ hlt)

/-- Entries in increasing order are determined by which entries there are. -/
theorem entries_unique {l m : List (String × α)} (hl : l.Pairwise fun a b => a.1 < b.1)
    (hm : m.Pairwise fun a b => a.1 < b.1) (h : ∀ e, e ∈ l ↔ e ∈ m) : l = m := by
  induction l generalizing m with
  | nil => exact (List.eq_nil_iff_forall_not_mem.2 fun e he => List.not_mem_nil ((h e).2 he)).symm
  | cons a l ih =>
    obtain ⟨ha, hltail⟩ := List.pairwise_cons.1 hl
    cases m with
    | nil => exact absurd ((h a).1 List.mem_cons_self) List.not_mem_nil
    | cons b m =>
      obtain ⟨hb, hmtail⟩ := List.pairwise_cons.1 hm
      -- each of the two heads has the least key
      have hab : a = b := by
        rcases List.mem_cons.1 ((h a).1 List.mem_cons_self) with hab | ham
        · exact hab
        · rcases List.mem_cons.1 ((h b).2 List.mem_cons_self) with hba | hbl
          · exact hba.symm
          · exact absurd (String.lt_trans (hb a ham) (ha b hbl)) (String.lt_irrefl _)
      subst hab
      have htail : ∀ e, e ∈ l ↔ e ∈ m := by
        intro e
        have he := h e
        simp only [List.mem_cons] at he
        constructor
        · intro hel
          exact (he.1 (.inr hel)).resolve_left fun heq => String.lt_irrefl _ (heq ▸ ha e hel)
        · intro hem
          exact (he.2 (.inr hem)).resolve_left fun heq => String.lt_irrefl _ (heq ▸ hb e hem)
      exact congrArg _ (ih hltail hmtail htail)

theorem ext_get? {d e : Dictionary α} (h : ∀ key, d.get? key = e.get? key) : d = e := by
  have hentries : d.entries = e.entries := by
    refine entries_unique d.sorted e.sorted fun entry => ?_
    rw [mem_entries_iff, h, ← mem_entries_iff]
  cases d
  cases e
  cases hentries
  rfl

/-- A key that comes after all others is put behind them. -/
theorem insertInto_last {key : String} {value : α} {entries : List (String × α)}
    (h : ∀ e ∈ entries, e.1 < key) : insertInto key value entries = entries ++ [(key, value)] := by
  induction entries with
  | nil => rfl
  | cons e entries ih =>
    obtain ⟨he, hentries⟩ := List.forall_mem_cons.1 h
    have hne : key ≠ e.1 := fun heq => String.lt_irrefl _ (heq ▸ he)
    rw [insertInto, if_neg fun hlt => String.lt_irrefl _ (String.lt_trans hlt he), if_neg hne,
      ih hentries, List.cons_append]

/-- The entries of a dictionary give the dictionary. -/
theorem ofList_entries (d : Dictionary α) : ofList d.entries = d := by
  have hrun : ∀ (entries : List (String × α)) (front : Dictionary α),
      (front.entries ++ entries).Pairwise (fun a b => a.1 < b.1) →
      (entries.foldl (fun d e => d.insert e.1 e.2) front).entries = front.entries ++ entries := by
    intro entries
    induction entries with
    | nil => exact fun front _ => (List.append_nil _).symm
    | cons e entries ih =>
      intro front hsorted
      have hlast : (front.insert e.1 e.2).entries = front.entries ++ [e] :=
        insertInto_last fun a ha =>
          (List.pairwise_append.1 hsorted).2.2 a ha e List.mem_cons_self
      rw [List.foldl_cons, ih, hlast, List.append_assoc, List.singleton_append]
      rwa [hlast, List.append_assoc, List.singleton_append]
  have hentries := hrun d.entries empty (by simpa [empty] using d.sorted)
  have hsame : (ofList d.entries).entries = d.entries := hentries
  generalize ofList d.entries = made at hsame
  cases made
  cases hsame
  rfl

end Cql.Dictionary
