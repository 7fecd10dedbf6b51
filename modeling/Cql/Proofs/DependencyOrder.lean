import Cql.Schema.DependencyOrder
import Mathlib.Data.List.Perm.Basic

/-!
Sorting user types by what they refer to. Taking types keeps count of the references that the types not
yet taken make to each type, so that a type is ready exactly when nothing refers to it any more. The
order that comes out holds the same types, each behind those it refers to, and it comes out whenever
there is any such order.
-/

namespace Cql.DependencyOrder

/-- No type refers to itself or to one behind it. -/
def InOrder : List TypeDraft → Prop
  | [] => True
  | d :: rest => (∀ e ∈ d :: rest, e.name ∉ d.references) ∧ InOrder rest

/-- A statement about the types of an order, each from the types it refers to. -/
theorem InOrder.of_references {P : TypeDraft → Prop} {drafts : List TypeDraft}
    (h : InOrder drafts)
    (step : ∀ d ∈ drafts, (∀ e ∈ drafts, e.name ∈ d.references → P e) → P d) :
    ∀ d ∈ drafts, P d := by
  induction drafts with
  | nil => exact fun d hd => absurd hd List.not_mem_nil
  | cons first rest ih =>
    obtain ⟨hfirst, hrest⟩ := h
    have hP : P first :=
      step first List.mem_cons_self fun e he href => absurd href (hfirst e he)
    refine List.forall_mem_cons.2 ⟨hP, ih hrest fun d hd hrefs => ?_⟩
    refine step d (List.mem_cons_of_mem _ hd) (List.forall_mem_cons.2 ⟨fun _ => hP, hrefs⟩)

/-- A statement about the types of an order, each from the types that refer to it. -/
theorem InOrder.of_referrers {P : TypeDraft → Prop} {drafts : List TypeDraft}
    (h : InOrder drafts)
    (step : ∀ d ∈ drafts, (∀ e ∈ drafts, d.name ∈ e.references → P e) → P d) :
    ∀ d ∈ drafts, P d := by
  induction drafts with
  | nil => exact fun d hd => absurd hd List.not_mem_nil
  | cons first rest ih =>
    obtain ⟨hfirst, hrest⟩ := h
    have hP : ∀ d ∈ rest, P d := by
      refine ih hrest fun d hd hrefs => ?_
      refine step d (List.mem_cons_of_mem _ hd) (List.forall_mem_cons.2 ⟨fun href => ?_, hrefs⟩)
      exact absurd href (hfirst d (List.mem_cons_of_mem _ hd))
    refine List.forall_mem_cons.2 ⟨step first List.mem_cons_self ?_, hP⟩
    refine List.forall_mem_cons.2 ⟨fun href => ?_, fun e he _ => hP e he⟩
    exact absurd href (hfirst first List.mem_cons_self)

/-! ## Counting references -/

theorem uses_perm {drafts others : List TypeDraft} (h : drafts.Perm others) (name : String) :
    uses drafts name = uses others name :=
  (h.flatMap_right TypeDraft.references).count_eq name

theorem uses_cons (d : TypeDraft) (rest : List TypeDraft) (name : String) :
    uses (d :: rest) name = d.references.count name + uses rest name := by
  rw [uses, List.flatMap_cons, List.count_append, uses]

theorem not_mem_references {drafts : List TypeDraft} {name : String} (h : uses drafts name = 0)
    {d : TypeDraft} (hd : d ∈ drafts) : name ∉ d.references := fun hname =>
  List.count_eq_zero.1 h (List.mem_flatMap.2 ⟨d, hd, hname⟩)

theorem exists_reference {drafts : List TypeDraft} {name : String} (h : 0 < uses drafts name) :
    ∃ d ∈ drafts, name ∈ d.references :=
  List.mem_flatMap.1 (List.count_pos_iff.1 h)

/-! ## What one step does -/

namespace Queue

/-- The types that are not taken yet. -/
def untaken (q : Queue) : List TypeDraft := q.ready ++ q.waiting.map (·.draft)

/-- Types of other names are passed over. -/
theorem releaseIn_append {name : String} {before : List Waiting} (rest : List Waiting)
    (h : ∀ w ∈ before, w.draft.name ≠ name) :
    releaseIn name (before ++ rest) =
      (before ++ (releaseIn name rest).1, (releaseIn name rest).2) := by
  induction before with
  | nil => rfl
  | cons w before ih =>
    obtain ⟨hw, hbefore⟩ := List.forall_mem_cons.1 h
    rw [List.cons_append, releaseIn, if_neg hw, ih hbefore]
    rfl

/-- A reference to a type that does not wait changes nothing. -/
theorem releaseIn_absent {name : String} {waiting : List Waiting}
    (h : ∀ w ∈ waiting, w.draft.name ≠ name) : releaseIn name waiting = (waiting, none) := by
  have hpassed := releaseIn_append [] h
  rw [List.append_nil, releaseIn, List.append_nil] at hpassed
  exact hpassed

/-- A reference to a type that waits is counted. -/
theorem releaseIn_counted {d : TypeDraft} {before : List Waiting} (more : Nat)
    (after : List Waiting) (h : ∀ w ∈ before, w.draft.name ≠ d.name) :
    releaseIn d.name (before ++ ⟨d, more + 1⟩ :: after) =
      (before ++ ⟨d, more⟩ :: after, none) := by
  rw [releaseIn_append _ h, releaseIn, if_pos rfl]

/-- The last reference to a type sets it free. -/
theorem releaseIn_last {d : TypeDraft} {before : List Waiting} (after : List Waiting)
    (h : ∀ w ∈ before, w.draft.name ≠ d.name) :
    releaseIn d.name (before ++ ⟨d, 0⟩ :: after) = (before ++ after, some d) := by
  rw [releaseIn_append _ h, releaseIn, if_pos rfl]

/-- The three things that a reference to a name can do. -/
theorem release_cases (q : Queue) (name : String) :
    ((∀ w ∈ q.waiting, w.draft.name ≠ name) ∧ q.release name = q) ∨
    (∃ before d more after, q.waiting = before ++ ⟨d, more + 1⟩ :: after ∧ d.name = name ∧
      q.release name = ⟨before ++ ⟨d, more⟩ :: after, q.ready⟩) ∨
    ∃ before d after, q.waiting = before ++ ⟨d, 0⟩ :: after ∧ d.name = name ∧
      q.release name = ⟨before ++ after, q.ready ++ [d]⟩ := by
  obtain ⟨waiting, ready⟩ := q
  by_cases habsent : ∀ w ∈ waiting, w.draft.name ≠ name
  · refine .inl ⟨habsent, ?_⟩
    simp [release, releaseIn_absent habsent]
  · have hfound : ∃ before, ∃ w, ∃ after, waiting = before ++ w :: after ∧ w.draft.name = name ∧
        ∀ v ∈ before, v.draft.name ≠ name := by
      clear ready
      induction waiting with
      | nil => exact absurd (fun w hw => absurd hw List.not_mem_nil) habsent
      | cons w rest ih =>
        by_cases hw : w.draft.name = name
        · exact ⟨[], w, rest, rfl, hw, fun v hv => absurd hv List.not_mem_nil⟩
        · obtain ⟨before, v, after, rfl, hv, hbefore⟩ :=
            ih fun h => habsent (List.forall_mem_cons.2 ⟨hw, h⟩)
          exact ⟨w :: before, v, after, rfl, hv, List.forall_mem_cons.2 ⟨hw, hbefore⟩⟩
    obtain ⟨before, ⟨d, more⟩, after, rfl, rfl, hbefore⟩ := hfound
    cases more with
    | succ more =>
      refine .inr (.inl ⟨before, d, more, after, rfl, rfl, ?_⟩)
      simp [release, releaseIn_counted more after hbefore]
    | zero =>
      refine .inr (.inr ⟨before, d, after, rfl, rfl, ?_⟩)
      simp [release, releaseIn_last after hbefore]

/-! ## What all steps keep -/

/-- The types are those taken and those not taken. The references that are still counted are those of
the types not taken, and the `pending` ones of the type taken last: a type that was taken or can be
taken has none, and a type that waits has as many as it says. -/
structure Invariant (drafts taken : List TypeDraft) (pending : List String) (q : Queue) : Prop where
  perm : (taken ++ q.untaken).Perm drafts
  free : ∀ d ∈ taken ++ q.ready, uses q.untaken d.name + pending.count d.name = 0
  waits : ∀ w ∈ q.waiting, uses q.untaken w.draft.name + pending.count w.draft.name = w.more + 1
  ordered : InOrder taken

variable {drafts taken : List TypeDraft}

/-- Two waiting types have different names. -/
theorem Invariant.other_names {pending : List String} {q : Queue}
    (h : Invariant drafts taken pending q) (hnames : (drafts.map (·.name)).Nodup)
    {before after : List Waiting} {w : Waiting} (hq : q.waiting = before ++ w :: after) :
    ∀ v ∈ before ++ after, v.draft.name ≠ w.draft.name := by
  have hall := (h.perm.map (·.name)).nodup_iff.2 hnames
  have hwaiting : (q.waiting.map (·.draft.name)).Nodup := by
    simp only [untaken, List.map_append, List.map_map] at hall
    exact (List.nodup_append.1 (List.nodup_append.1 hall).2.1).2.1
  rw [hq, (List.perm_middle.map _).nodup_iff, List.map_cons, List.nodup_cons] at hwaiting
  intro v hv hname
  exact hwaiting.1 (List.mem_map.2 ⟨v, hv, hname⟩)

/-! A reference is taken off the list of those that are still counted. -/

section Release

variable {name : String} {pending : List String} {q : Queue}

theorem Invariant.free_later (h : Invariant drafts taken (name :: pending) q) :
    ∀ d ∈ taken ++ q.ready, uses q.untaken d.name + pending.count d.name = 0 := by
  intro d hd
  have hall := h.free d hd
  rw [List.count_cons] at hall
  omega

theorem Invariant.waits_other (h : Invariant drafts taken (name :: pending) q) {w : Waiting}
    (hw : w ∈ q.waiting) (hne : w.draft.name ≠ name) :
    uses q.untaken w.draft.name + pending.count w.draft.name = w.more + 1 := by
  rw [← h.waits w hw, List.count_cons_of_ne hne.symm]

/-- One reference fewer is counted of the type that is referred to. -/
theorem Invariant.waits_self (h : Invariant drafts taken (name :: pending) q) {w : Waiting}
    (hw : w ∈ q.waiting) (hname : w.draft.name = name) :
    uses q.untaken w.draft.name + pending.count w.draft.name = w.more := by
  have hall := h.waits w hw
  rw [hname, List.count_cons_self] at hall
  rw [hname]
  omega

/-- The other types wait as they did. -/
theorem Invariant.waits_beside (h : Invariant drafts taken (name :: pending) q)
    (hnames : (drafts.map (·.name)).Nodup) {before after : List Waiting} {v : Waiting}
    (hq : q.waiting = before ++ v :: after) (hname : v.draft.name = name) {w : Waiting}
    (hw : w ∈ before ++ after) :
    uses q.untaken w.draft.name + pending.count w.draft.name = w.more + 1 :=
  h.waits_other (hq ▸ List.perm_middle.mem_iff.2 (List.mem_cons_of_mem _ hw))
    (hname ▸ h.other_names hnames hq w hw)

theorem Invariant.counted (h : Invariant drafts taken (name :: pending) q)
    (hnames : (drafts.map (·.name)).Nodup) {before after : List Waiting} {d : TypeDraft} {more : Nat}
    (hq : q.waiting = before ++ ⟨d, more + 1⟩ :: after) (hname : d.name = name) :
    Invariant drafts taken pending ⟨before ++ ⟨d, more⟩ :: after, q.ready⟩ := by
  have huntaken : untaken ⟨before ++ ⟨d, more⟩ :: after, q.ready⟩ = q.untaken := by
    simp [hq, untaken]
  refine ⟨huntaken ▸ h.perm, ?_, ?_, h.ordered⟩
  · rw [huntaken]
    exact h.free_later
  · rw [huntaken]
    intro w hw
    rcases List.mem_cons.1 (List.perm_middle.mem_iff.1 hw) with rfl | hw
    · exact h.waits_self (w := ⟨d, more + 1⟩) (hq ▸ List.mem_append_cons_self) hname
    · exact h.waits_beside hnames hq hname hw

theorem Invariant.freed (h : Invariant drafts taken (name :: pending) q)
    (hnames : (drafts.map (·.name)).Nodup) {before after : List Waiting} {d : TypeDraft}
    (hq : q.waiting = before ++ ⟨d, 0⟩ :: after) (hname : d.name = name) :
    Invariant drafts taken pending ⟨before ++ after, q.ready ++ [d]⟩ := by
  have huntaken : (untaken ⟨before ++ after, q.ready ++ [d]⟩).Perm q.untaken := by
    simp only [hq, untaken, List.map_append, List.append_assoc, List.map_cons,
      List.singleton_append]
    exact List.perm_middle.symm.append_left _
  refine ⟨(huntaken.append_left _).trans h.perm, ?_, ?_, h.ordered⟩
  · intro e he
    rw [uses_perm huntaken]
    rw [← List.append_assoc, List.mem_append, List.mem_singleton] at he
    rcases he with he | rfl
    · exact h.free_later e he
    · exact h.waits_self (w := ⟨e, 0⟩) (hq ▸ List.mem_append_cons_self) hname
  · intro w hw
    rw [uses_perm huntaken]
    exact h.waits_beside hnames hq hname hw

theorem Invariant.release (h : Invariant drafts taken (name :: pending) q)
    (hnames : (drafts.map (·.name)).Nodup) :
    Invariant drafts taken pending (q.release name) := by
  rcases release_cases q name with ⟨habsent, heq⟩ | ⟨before, d, more, after, hq, hname, heq⟩ |
    ⟨before, d, after, hq, hname, heq⟩
  · rw [heq]
    exact ⟨h.perm, h.free_later, fun w hw => h.waits_other hw (habsent w hw), h.ordered⟩
  · rw [heq]
    exact h.counted hnames hq hname
  · rw [heq]
    exact h.freed hnames hq hname

end Release

theorem Invariant.foldl_release (hnames : (drafts.map (·.name)).Nodup) (pending : List String)
    {q : Queue} (h : Invariant drafts taken pending q) :
    Invariant drafts taken [] (pending.foldl Queue.release q) := by
  induction pending generalizing q with
  | nil => exact h
  | cons name pending ih => exact ih (h.release hnames)

/-- A type that is taken refers neither to itself nor to those taken before it, and its references
become pending. -/
theorem Invariant.take {d : TypeDraft} {waiting : List Waiting} {ready : List TypeDraft}
    (h : Invariant drafts taken [] ⟨waiting, d :: ready⟩) :
    Invariant drafts (d :: taken) d.references ⟨waiting, ready⟩ := by
  have hfree : ∀ e ∈ taken ++ d :: ready, uses (d :: untaken ⟨waiting, ready⟩) e.name = 0 :=
    fun e he => h.free e he
  have hwaits : ∀ w ∈ waiting, uses (d :: untaken ⟨waiting, ready⟩) w.draft.name = w.more + 1 :=
    fun w hw => h.waits w hw
  refine ⟨List.perm_middle.symm.trans h.perm, ?_, ?_, ?_, h.ordered⟩
  · intro e he
    have := hfree e (List.perm_middle.mem_iff.2 he)
    rw [uses_cons] at this
    omega
  · intro w hw
    have := hwaits w hw
    rw [uses_cons] at this
    rw [← this, Nat.add_comm]
  · intro e he
    refine not_mem_references (hfree e ?_) List.mem_cons_self
    exact List.perm_middle.mem_iff.2 (List.mem_append_left ready he)

end Queue

/-- Once nothing is ready, the types taken are in order, and each of the others is referred to by
others. -/
theorem take_invariant {drafts taken : List TypeDraft} {q : Queue}
    (hnames : (drafts.map (·.name)).Nodup) (h : q.Invariant drafts taken []) :
    Queue.Invariant drafts (take taken q).1 [] ⟨(take taken q).2, []⟩ := by
  fun_induction take taken q with
  | case1 taken waiting => exact h
  | case2 taken waiting d ready ih => exact ih (h.take.foldl_release hnames _)

/-- The types that wait are those that are referred to. -/
theorem start_waiting (drafts : List TypeDraft) :
    (start drafts).waiting.map (·.draft) = drafts.filter fun d => !(uses drafts d.name == 0) := by
  rw [start, List.map_filterMap, ← List.filterMap_eq_filter]
  refine List.filterMap_congr fun d _ => ?_
  cases huses : uses drafts d.name <;> simp [Option.guard, huses]

theorem start_invariant (drafts : List TypeDraft) : (start drafts).Invariant drafts [] [] := by
  have hperm : (start drafts).untaken.Perm drafts := by
    rw [Queue.untaken, start_waiting]
    exact List.filter_append_perm _ _
  refine ⟨hperm, ?_, ?_, trivial⟩
  · intro d hd
    rw [uses_perm hperm]
    simpa [start] using (List.mem_filter.1 hd).2
  · intro w hw
    rw [uses_perm hperm]
    obtain ⟨d, -, hd⟩ := List.mem_filterMap.1 hw
    cases huses : uses drafts d.name with
    | zero => simp [huses] at hd
    | succ more =>
      simp only [huses, Option.some.injEq] at hd
      subst hd
      exact huses

/-! ## The order -/

/-- The order of types of different names is one of these types, each behind those it refers to. -/
theorem order_ok {drafts sorted : List TypeDraft} (hnames : (drafts.map (·.name)).Nodup)
    (h : order drafts = .ok sorted) : sorted.Perm drafts ∧ InOrder sorted := by
  have hinv := take_invariant hnames (start_invariant drafts)
  rw [order] at h
  split at h
  · next taken hout =>
    cases h
    rw [hout] at hinv
    exact ⟨by simpa [Queue.untaken] using hinv.perm, hinv.ordered⟩
  · cases h

theorem order_error {drafts : List TypeDraft} {fault : SchemaFault} (h : order drafts = .error fault) :
    fault = .circularTypes := by
  rw [order] at h
  split at h
  · cases h
  · cases h
    rfl

/-- If the types can be put in order at all, then they are. -/
theorem exists_order {drafts sorted : List TypeDraft} (hnames : (drafts.map (·.name)).Nodup)
    (hperm : sorted.Perm drafts) (hsorted : InOrder sorted) :
    ∃ out, order drafts = .ok out := by
  have hinv := take_invariant hnames (start_invariant drafts)
  rw [order]
  split
  · next taken hout => exact ⟨taken, rfl⟩
  · next taken w rest hout =>
    rw [hout] at hinv
    -- a type that waits to the end is referred to by another one that does
    have hnone : ∀ d ∈ sorted, d ∉ (w :: rest).map (·.draft) := by
      refine hsorted.of_referrers fun d _ hrefs hd => ?_
      obtain ⟨v, hv, rfl⟩ := List.mem_map.1 hd
      have huses : uses ((w :: rest).map (·.draft)) v.draft.name = v.more + 1 := hinv.waits v hv
      obtain ⟨e, he, href⟩ := exists_reference (Nat.lt_of_lt_of_eq (Nat.succ_pos v.more) huses.symm)
      refine hrefs e (hperm.mem_iff.2 (hinv.perm.mem_iff.1 ?_)) href he
      exact List.mem_append_right taken he
    have hw : w.draft ∈ sorted := by
      refine hperm.mem_iff.2 (hinv.perm.mem_iff.1 ?_)
      exact List.mem_append_right taken List.mem_cons_self
    exact absurd List.mem_cons_self (hnone w.draft hw)

/-! ## Types of the same name -/

theorem mem_names_latest {drafts : List TypeDraft} {name : String} :
    name ∈ (latest drafts).map (·.name) ↔ name ∈ drafts.map (·.name) := by
  induction drafts with
  | nil => rfl
  | cons d rest ih =>
    rw [latest]
    split
    · next hlater =>
      obtain ⟨e, he, hname⟩ := List.any_eq_true.1 hlater
      have hd : d.name ∈ rest.map (·.name) := List.mem_map.2 ⟨e, he, by simpa using hname⟩
      rw [ih, List.map_cons, List.mem_cons]
      exact ⟨.inr, fun h => h.elim (fun heq => heq ▸ hd) id⟩
    · rw [List.map_cons, List.mem_cons, ih, List.map_cons, List.mem_cons]

theorem latest_names_nodup (drafts : List TypeDraft) : ((latest drafts).map (·.name)).Nodup := by
  induction drafts with
  | nil => exact List.nodup_nil
  | cons d rest ih =>
    rw [latest]
    split
    · exact ih
    · next hlast =>
      refine List.nodup_cons.2 ⟨fun hd => ?_, ih⟩
      obtain ⟨e, he, hname⟩ := List.mem_map.1 (mem_names_latest.1 hd)
      exact hlast (List.any_eq_true.2 ⟨e, he, by simpa using hname⟩)

/-- A type counts if no type of its name comes later. -/
theorem mem_latest_self {d : TypeDraft} {rest : List TypeDraft}
    (h : d.name ∉ rest.map (·.name)) : d ∈ latest (d :: rest) := by
  rw [latest, if_neg]
  · exact List.mem_cons_self
  · intro hlater
    obtain ⟨e, he, hname⟩ := List.any_eq_true.1 hlater
    exact h (List.mem_map.2 ⟨e, he, by simpa using hname⟩)

theorem mem_latest_cons {d e : TypeDraft} {rest : List TypeDraft} (h : d ∈ latest rest) :
    d ∈ latest (e :: rest) := by
  rw [latest]
  split
  · exact h
  · exact List.mem_cons_of_mem e h

theorem latest_eq_self {drafts : List TypeDraft} (h : (drafts.map (·.name)).Nodup) :
    latest drafts = drafts := by
  induction drafts with
  | nil => rfl
  | cons d rest ih =>
    obtain ⟨hd, hrest⟩ := List.nodup_cons.1 h
    rw [latest, if_neg, ih hrest]
    intro hlater
    obtain ⟨e, he, hname⟩ := List.any_eq_true.1 hlater
    exact hd (List.mem_map.2 ⟨e, he, by simpa using hname⟩)

end Cql.DependencyOrder
