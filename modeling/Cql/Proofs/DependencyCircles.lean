import Cql.Schema.DependencyCounters
import Cql.Proofs.DependencyOrder
import Cql.Proofs.Sequences
import Cql.Proofs.Words
import Mathlib.Data.List.Nodup
import Mathlib.Logic.Relation
import Mathlib.Order.WellFoundedSet

/-!
Sorting user types is exact: it fails if and only if types refer to each other in a circle. The counters
never go below zero, since each is the number of references that types not yet taken make; with them the
work goes step by step like the one without counters, so that both give the same order.
-/

namespace Cql.DependencyOrder

/-! ## Circles -/

/-- One type of the list refers to another one. -/
def Refers (drafts : List TypeDraft) (d e : TypeDraft) : Prop :=
  d ∈ drafts ∧ e ∈ drafts ∧ e.name ∈ d.references

/-- References lead from a type of the list back to it. -/
def Circular (drafts : List TypeDraft) : Prop := ∃ d, Relation.TransGen (Refers drafts) d d

theorem Circular.perm {drafts others : List TypeDraft} (h : Circular drafts)
    (hperm : drafts.Perm others) : Circular others := by
  obtain ⟨d, hd⟩ := h
  refine ⟨d, hd.lift id fun a b hab => ?_⟩
  exact ⟨hperm.mem_iff.1 hab.1, hperm.mem_iff.1 hab.2.1, hab.2.2⟩

/-- Where each type has the ones it refers to in front of it there is no circle. -/
theorem InOrder.not_circular {drafts : List TypeDraft} (h : InOrder drafts) : ¬ Circular drafts := by
  rintro ⟨d, hd⟩
  have hmem : d ∈ drafts := by
    obtain ⟨e, he, -⟩ := Relation.TransGen.head'_iff.1 hd
    exact he.1
  refine h.of_references (P := fun d => ¬ Relation.TransGen (Refers drafts) d d) ?_ d hmem hd
  intro d _ hrefs hcircle
  -- the next type on the circle is on it as well
  obtain ⟨e, hde, hed⟩ := Relation.TransGen.head'_iff.1 hcircle
  exact hrefs e hde.2.1 hde.2.2 (.tail' hed hde)

/-- Types that all are referred to by others of them contain a circle. -/
theorem circular_of_referred {drafts left : List TypeDraft} (hne : left ≠ [])
    (hleft : ∀ d ∈ left, ∃ e ∈ left, Refers drafts e d) : Circular drafts := by
  by_contra hnone
  have hirrefl : Std.Irrefl (Relation.TransGen (Refers drafts)) := ⟨fun d hd => hnone ⟨d, hd⟩⟩
  have htrans : IsTrans _ (Relation.TransGen (Refers drafts)) := ⟨fun _ _ _ => .trans⟩
  have horder : IsStrictOrder _ (Relation.TransGen (Refers drafts)) := {}
  have hfounded := (List.finite_toSet left).wellFoundedOn (r := Relation.TransGen (Refers drafts))
  obtain ⟨d, hd⟩ := List.exists_mem_of_ne_nil left hne
  refine hfounded.induction (P := fun _ => False) hd fun d hd ih => ?_
  obtain ⟨e, he, hrefers⟩ := hleft d hd
  exact ih e he (.single hrefers)

/-- The work fails exactly on a circle. -/
theorem order_error_iff {drafts : List TypeDraft} (hnames : (drafts.map (·.name)).Nodup) :
    order drafts = .error .circularTypes ↔ Circular drafts := by
  have hinv := take_invariant hnames (start_invariant drafts)
  constructor
  · intro h
    rw [order] at h
    split at h
    · cases h
    · next taken w rest hout =>
      rw [hout] at hinv
      have hmem : ∀ v ∈ w :: rest, v.draft ∈ drafts := fun v hv =>
        hinv.perm.mem_iff.1 (List.mem_append_right taken (List.mem_map_of_mem hv))
      have hne : (w :: rest).map (·.draft) ≠ [] := by simp
      refine circular_of_referred hne fun d hd => ?_
      obtain ⟨v, hv, rfl⟩ := List.mem_map.1 hd
      have huses : uses ((w :: rest).map (·.draft)) v.draft.name = v.more + 1 := hinv.waits v hv
      obtain ⟨e, he, href⟩ := exists_reference (Nat.lt_of_lt_of_eq (Nat.succ_pos v.more) huses.symm)
      obtain ⟨u, hu, rfl⟩ := List.mem_map.1 he
      exact ⟨u.draft, he, hmem u hu, hmem v hv, href⟩
  · intro hcircular
    cases hout : order drafts with
    | ok sorted =>
      obtain ⟨hperm, hsorted⟩ := order_ok hnames hout
      exact absurd (hcircular.perm hperm.symm) hsorted.not_circular
    | error fault => rw [order_error hout]

/-- A type of an order comes after those it refers to. -/
theorem InOrder.mem_front {drafts front back : List TypeDraft} {d e : TypeDraft}
    (h : InOrder drafts) (hsplit : drafts = front ++ d :: back) (he : e ∈ drafts)
    (href : e.name ∈ d.references) : e ∈ front := by
  induction front generalizing drafts with
  | nil =>
    subst hsplit
    exact absurd href (h.1 e he)
  | cons first front ih =>
    subst hsplit
    rcases List.mem_cons.1 he with rfl | he
    · exact List.mem_cons_self
    · exact List.mem_cons_of_mem _ (ih h.2 rfl he)

/-! ## Counters -/

/-- A type that is referred to waits. -/
def Counter.waiting? (c : Counter) : Option Waiting :=
  match c.count.toNat with
  | 0 => none
  | more + 1 => some ⟨c.draft, more⟩

theorem Counter.draft_of_waiting? {c : Counter} {w : Waiting} (h : c.waiting? = some w) :
    w.draft = c.draft := by
  unfold waiting? at h
  split at h
  · cases h
  · cases h
    rfl

theorem Counter.waiting?_succ {draft : TypeDraft} {count : UInt32} {more : Nat}
    (h : count.toNat = more + 1) : waiting? ⟨draft, count⟩ = some ⟨draft, more⟩ := by
  simp only [waiting?, h]

/-- The schedule is where the work without counters is. -/
structure Schedule.Follows (drafts taken : List TypeDraft) (q : Queue) (s : Schedule) : Prop where
  table : s.counters.map (·.draft) = drafts
  waiting : s.counters.filterMap Counter.waiting? = q.waiting
  sorted : s.sorted = (taken.reverse ++ q.ready).map (·.name)
  next : s.next = taken.length

namespace Schedule

/-- Every counter of the table has come to a number that depends on the name. -/
def Counts (f : String → Nat) (counters : List Counter) : Prop :=
  ∀ c ∈ counters, c.count.toNat = f c.draft.name

/-- Counting up is counted in the entry of the name, and stops where there is no room for it. -/
theorem countUp_counts {counters : List Counter} {f : String → Nat}
    (hnames : (counters.map (·.draft.name)).Nodup) (h : Counts f counters) (name : String) :
    (∃ after, countUp name counters = .ok after ∧
      after.map (·.draft) = counters.map (·.draft) ∧ Counts (fun n => f n + [name].count n) after) ∨
    (countUp name counters = .error .sum ∧
      ∃ c ∈ counters, 2 ^ 32 ≤ f c.draft.name + [name].count c.draft.name) := by
  induction counters with
  | nil => exact .inl ⟨[], rfl, rfl, fun c hc => absurd hc List.not_mem_nil⟩
  | cons c rest ih =>
    obtain ⟨hc, hrest⟩ := List.nodup_cons.1 hnames
    obtain ⟨hcount, hcounts⟩ := List.forall_mem_cons.1 h
    by_cases hname : c.draft.name = name
    · have hone : [name].count c.draft.name = 1 := by simp [hname]
      have hothers : Counts (fun n => f n + [name].count n) rest := by
        intro e he
        have hne : name ≠ e.draft.name := fun heq =>
          hc (List.mem_map.2 ⟨e, he, heq.symm.trans hname.symm⟩)
        simp [hcounts e he, hne]
      rw [countUp, if_pos hname]
      cases hup : Word.up c.count with
      | ok count =>
        have hmore : count.toNat = f c.draft.name + [name].count c.draft.name := by
          rw [Word.up_ok_iff.1 hup, hcount, hone]
        exact .inl ⟨_, rfl, rfl, List.forall_mem_cons.2 ⟨hmore, hothers⟩⟩
      | error stop =>
        obtain ⟨rfl, hfull⟩ := Word.up_error_iff.1 hup
        exact .inr ⟨rfl, c, List.mem_cons_self, by omega⟩
    · have hsame : c.count.toNat = f c.draft.name + [name].count c.draft.name := by
        simp [hcount, Ne.symm hname]
      rw [countUp, if_neg hname]
      rcases ih hrest hcounts with ⟨after, hafter, hdrafts, hall⟩ | ⟨hstop, e, he, hfull⟩
      · rw [hafter]
        refine .inl ⟨_, rfl, by rw [List.map_cons, hdrafts, List.map_cons], ?_⟩
        exact List.forall_mem_cons.2 ⟨hsame, hall⟩
      · rw [hstop]
        exact .inr ⟨rfl, e, List.mem_cons_of_mem _ he, hfull⟩

/-- Names are counted all, or one of them has no room in its counter. -/
theorem countAll_counts (names : List String) {counters : List Counter} {f : String → Nat}
    (hnames : (counters.map (·.draft.name)).Nodup) (h : Counts f counters) :
    (∃ after, countAll names counters = .ok after ∧
      after.map (·.draft) = counters.map (·.draft) ∧ Counts (fun n => f n + names.count n) after) ∨
    (countAll names counters = .error .sum ∧
      ∃ c ∈ counters, 2 ^ 32 ≤ f c.draft.name + names.count c.draft.name) := by
  induction names generalizing counters f with
  | nil => exact .inl ⟨counters, rfl, rfl, h⟩
  | cons name names ih =>
    have hsplit : ∀ n, (name :: names).count n = [name].count n + names.count n := fun n => by
      rw [← List.count_append, List.singleton_append]
    rw [countAll, List.foldlM_cons]
    rcases countUp_counts hnames h name with ⟨one, hone, hdrafts, hcounts⟩ | ⟨hstop, c, hc, hfull⟩
    · have hsame : one.map (·.draft.name) = counters.map (·.draft.name) := by
        have hmapped := congrArg (List.map TypeDraft.name) hdrafts
        rw [List.map_map, List.map_map] at hmapped
        exact hmapped
      rw [hone, ok_bind]
      rcases ih (hsame ▸ hnames) hcounts with ⟨after, hafter, hdrafts', hall⟩ | ⟨hstop, c, hc, hfull⟩
      · refine .inl ⟨after, hafter, hdrafts'.trans hdrafts, fun c hc => (hall c hc).trans ?_⟩
        dsimp only
        rw [hsplit, Nat.add_assoc]
      · obtain ⟨e, he, hdraft⟩ := List.mem_map.1 (hdrafts ▸ List.mem_map_of_mem hc)
        refine .inr ⟨hstop, e, he, ?_⟩
        rw [hdraft, hsplit, ← Nat.add_assoc]
        exact hfull
    · rw [hstop]
      refine .inr ⟨rfl, c, hc, ?_⟩
      rw [hsplit, ← Nat.add_assoc]
      exact Nat.le_add_right_of_le hfull

/-- The types that wait are those with a counter above zero. -/
theorem start_waiting {drafts : List TypeDraft} {counters : List Counter}
    (htable : counters.map (·.draft) = drafts) (h : Counts (uses drafts) counters) :
    counters.filterMap Counter.waiting? = (DependencyOrder.start drafts).waiting := by
  have hwaiting : (DependencyOrder.start drafts).waiting = (counters.map (·.draft)).filterMap fun d =>
      match uses drafts d.name with
      | 0 => none
      | more + 1 => some ⟨d, more⟩ := by rw [htable]; rfl
  rw [hwaiting, List.filterMap_map]
  refine List.filterMap_congr fun c hc => ?_
  simp only [Counter.waiting?, h c hc, Function.comp]

/-- The types that are ready are those with a counter at zero. -/
theorem start_sorted {drafts : List TypeDraft} {counters : List Counter}
    (htable : counters.map (·.draft) = drafts) (h : Counts (uses drafts) counters) :
    (counters.filter (·.count == 0)).map (·.draft.name) =
      (DependencyOrder.start drafts).ready.map (·.name) := by
  have hready : (DependencyOrder.start drafts).ready =
      (counters.map (·.draft)).filter fun d => uses drafts d.name == 0 := by rw [htable]; rfl
  have hsame : counters.filter (·.count == 0) =
      counters.filter ((fun d => uses drafts d.name == 0) ∘ (·.draft)) := by
    refine List.filter_congr fun c hc => ?_
    rw [Function.comp, ← h c hc, Bool.eq_iff_iff, beq_iff_eq, beq_iff_eq, ← UInt32.toNat_inj]
    rfl
  rw [hready, List.filter_map, List.map_map, hsame]
  rfl

/-- At the start every counter is the number of references to its type, and the schedule is where the
work without counters starts. There is no start if a type has more references than a counter can hold. -/
theorem start_cases {drafts : List TypeDraft} (hnames : (drafts.map (·.name)).Nodup) :
    (∃ first, start drafts = .ok first ∧ Counts (uses drafts) first.counters ∧
      first.Follows drafts [] (DependencyOrder.start drafts)) ∨
    (start drafts = .error .sum ∧ ∃ d ∈ drafts, 2 ^ 32 ≤ uses drafts d.name) := by
  have hzeroNames : ((drafts.map fun d => (⟨d, 0⟩ : Counter)).map (·.draft.name)).Nodup := by
    rw [List.map_map]
    exact hnames
  have hzero : Counts (fun _ => 0) (drafts.map fun d => (⟨d, 0⟩ : Counter)) :=
    List.forall_mem_map.2 fun _ _ => rfl
  have hdrafts : (drafts.map fun d => (⟨d, 0⟩ : Counter)).map (·.draft) = drafts := by
    rw [List.map_map]
    exact List.map_id drafts
  rw [start]
  rcases countAll_counts (drafts.flatMap TypeDraft.references) hzeroNames hzero with
    ⟨counters, hall, htable, hcounts⟩ | ⟨hstop, c, hc, hfull⟩
  · have huses : Counts (uses drafts) counters := fun c hc => (hcounts c hc).trans (Nat.zero_add _)
    rw [hall, map_ok]
    refine .inl ⟨_, rfl, huses, htable.trans hdrafts, ?_, ?_, rfl⟩
    · exact start_waiting (htable.trans hdrafts) huses
    · exact start_sorted (htable.trans hdrafts) huses
  · obtain ⟨d, hd, rfl⟩ := List.mem_map.1 hc
    rw [hstop, map_error]
    rw [Nat.zero_add] at hfull
    exact .inr ⟨rfl, d, hd, hfull⟩

/-- The counter of a name that is not zero is counted down, as the reference is taken away from the type
that waits. -/
theorem countDown_releaseIn {name : String} {counters : List Counter}
    (hpos : ∀ c ∈ counters, c.draft.name = name → c.count ≠ 0) :
    ∃ rest freed, countDown name counters = .ok (rest, Option.isSome freed) ∧
      Queue.releaseIn name (counters.filterMap Counter.waiting?) =
        (rest.filterMap Counter.waiting?, freed) ∧
      rest.map (·.draft) = counters.map (·.draft) ∧ ∀ d ∈ freed, d.name = name := by
  induction counters with
  | nil => exact ⟨[], none, rfl, rfl, rfl, by simp⟩
  | cons c others ih =>
    obtain ⟨hc, hothers⟩ := List.forall_mem_cons.1 hpos
    obtain ⟨draft, count⟩ := c
    by_cases hname : draft.name = name
    · obtain ⟨left, hdown, hcount⟩ := Word.exists_down (hc hname)
      rw [countDown, if_pos hname, hdown, map_ok, List.filterMap_cons, Counter.waiting?_succ hcount]
      by_cases hleft : left = 0
      · subst hleft
        have hzero : Counter.waiting? ⟨draft, 0⟩ = none := rfl
        refine ⟨⟨draft, 0⟩ :: others, some draft, rfl, ?_, rfl, by simpa using hname⟩
        simp [hzero, Queue.releaseIn, hname]
      · obtain ⟨_, -, hmore⟩ := Word.exists_down hleft
        refine ⟨⟨draft, left⟩ :: others, none, by simp [hleft], ?_, rfl, by simp⟩
        simp [Counter.waiting?_succ hmore, Queue.releaseIn, hname, hmore]
    · obtain ⟨rest, freed, hdown, hrelease, hdrafts, hfreed⟩ := ih hothers
      refine ⟨⟨draft, count⟩ :: rest, freed, ?_, ?_, by simp [hdrafts], hfreed⟩
      · rw [countDown, if_neg hname, hdown]
        rfl
      · rw [List.filterMap_cons, List.filterMap_cons]
        cases hwaiting : Counter.waiting? ⟨draft, count⟩ with
        | none => exact hrelease
        | some w =>
          have hother : w.draft.name ≠ name := by
            rw [Counter.draft_of_waiting? hwaiting]
            exact hname
          simp [Queue.releaseIn, hother, hrelease]

variable {drafts taken : List TypeDraft} {q : Queue} {s : Schedule}

/-- A type whose counter is zero was taken or can be taken. -/
theorem Follows.free {pending : List String} (h : s.Follows drafts taken q)
    (hinv : q.Invariant drafts taken pending) (hnames : (drafts.map (·.name)).Nodup)
    {c : Counter} (hc : c ∈ s.counters) (hzero : c.count = 0) : c.draft ∈ taken ++ q.ready := by
  have hmem : c.draft ∈ drafts := h.table ▸ List.mem_map_of_mem hc
  have hsplit := hinv.perm.mem_iff.2 hmem
  rw [Queue.untaken, ← List.append_assoc] at hsplit
  refine (List.mem_append.1 hsplit).resolve_right fun hwaits => ?_
  obtain ⟨w, hw, hdraft⟩ := List.mem_map.1 hwaits
  rw [← h.waiting] at hw
  obtain ⟨e, he, hwaiting⟩ := List.mem_filterMap.1 hw
  -- the entry that waits is the same, since there is one for each name
  have hcounters : (s.counters.map (·.draft.name)).Nodup := by
    rw [← h.table, List.map_map] at hnames
    exact hnames
  have hdraft' : e.draft = c.draft := (Counter.draft_of_waiting? hwaiting).symm.trans hdraft
  have hsame := List.inj_on_of_nodup_map hcounters he hc (congrArg TypeDraft.name hdraft')
  rw [hsame, Counter.waiting?, hzero] at hwaiting
  cases hwaiting

/-- A reference that was counted can be taken away. -/
theorem Follows.release {name : String} {pending : List String} (h : s.Follows drafts taken q)
    (hinv : q.Invariant drafts taken (name :: pending)) (hnames : (drafts.map (·.name)).Nodup) :
    ∃ after, s.release name = .ok after ∧ after.Follows drafts taken (q.release name) := by
  have hpos : ∀ c ∈ s.counters, c.draft.name = name → c.count ≠ 0 := by
    rintro c hc rfl hzero
    have := hinv.free c.draft (h.free hinv hnames hc hzero)
    rw [List.count_cons_self] at this
    omega
  obtain ⟨rest, freed, hdown, hrelease, hdrafts, hfreed⟩ := countDown_releaseIn hpos
  rw [h.waiting] at hrelease
  refine ⟨_, by rw [Schedule.release, hdown, map_ok], ?_⟩
  rw [Queue.release, hrelease]
  refine ⟨hdrafts.trans h.table, rfl, ?_, h.next⟩
  cases freed with
  | none => simpa using h.sorted
  | some d => simp [h.sorted, hfreed d rfl]

theorem Follows.releaseAll {pending : List String} (h : s.Follows drafts taken q)
    (hinv : q.Invariant drafts taken pending) (hnames : (drafts.map (·.name)).Nodup) :
    ∃ after, s.releaseAll pending = .ok after ∧
      after.Follows drafts taken (pending.foldl Queue.release q) := by
  induction pending generalizing s q with
  | nil => exact ⟨s, rfl, h⟩
  | cons name pending ih =>
    obtain ⟨one, hone, hfollows⟩ := h.release hinv hnames
    obtain ⟨after, hafter, hall⟩ := ih hfollows (hinv.release hnames)
    refine ⟨after, ?_, hall⟩
    rw [Schedule.releaseAll, List.foldlM_cons, hone]
    exact hafter

/-- The type of a name is found in the table. -/
theorem Follows.find? (h : s.Follows drafts taken q) (hnames : (drafts.map (·.name)).Nodup)
    {d : TypeDraft} (hd : d ∈ drafts) : s.find? d.name = some d := by
  rw [← h.table] at hd hnames
  obtain ⟨c, hc, rfl⟩ := List.mem_map.1 hd
  have hcounters : (s.counters.map (·.draft.name)).Nodup := by
    rw [List.map_map] at hnames
    exact hnames
  rw [Schedule.find?, find?_of_nodup_map hcounters hc]
  rfl

/-- The next type is taken. -/
theorem Follows.step {d : TypeDraft} {waiting : List Waiting} {ready : List TypeDraft}
    (h : s.Follows drafts taken ⟨waiting, d :: ready⟩)
    (hinv : Queue.Invariant drafts taken [] ⟨waiting, d :: ready⟩)
    (hnames : (drafts.map (·.name)).Nodup) :
    s.sorted[s.next]? = some d.name ∧ ∃ after, s.step d.name = .ok after ∧
      after.Follows drafts (d :: taken) (d.references.foldl Queue.release ⟨waiting, ready⟩) := by
  constructor
  · rw [h.sorted, h.next]
    simp
  · have hd : d ∈ drafts := by
      refine hinv.perm.mem_iff.1 (List.mem_append_right taken ?_)
      exact List.mem_append_left _ List.mem_cons_self
    have htaken : Follows drafts (d :: taken) ⟨waiting, ready⟩
        ⟨s.counters, s.sorted, s.next + 1⟩ := by
      refine ⟨h.table, h.waiting, ?_, by simp [h.next]⟩
      simp [h.sorted]
    obtain ⟨after, hafter, hfollows⟩ := htaken.releaseAll hinv.take hnames
    exact ⟨after, by rw [Schedule.step, h.find? hnames hd]; exact hafter, hfollows⟩

theorem run_last (h : s.sorted[s.next]? = none) : s.run = .ok s := by
  rw [Schedule.run]
  split
  · rfl
  · next hname =>
    rw [h] at hname
    cases hname

theorem run_next {name : String} {after : Schedule} (h : s.sorted[s.next]? = some name)
    (hafter : s.step name = .ok after) : s.run = after.run := by
  conv_lhs => rw [Schedule.run]
  split
  · next hnone =>
    rw [h] at hnone
    cases hnone
  · next name hsome =>
    rw [h] at hsome
    cases hsome
    split
    · next hstep =>
      rw [hafter] at hstep
      cases hstep
    · next hstep =>
      rw [hafter] at hstep
      cases hstep
      rfl

/-- Without a failure the work comes to the end, at the same place as the one without counters. -/
theorem Follows.run (h : s.Follows drafts taken q) (hinv : q.Invariant drafts taken [])
    (hnames : (drafts.map (·.name)).Nodup) :
    ∃ final, s.run = .ok final ∧ final.Follows drafts (take taken q).1 ⟨(take taken q).2, []⟩ := by
  fun_induction take taken q generalizing s with
  | case1 taken waiting =>
    refine ⟨s, run_last ?_, h⟩
    rw [h.sorted, h.next]
    simp
  | case2 taken waiting d ready ih =>
    obtain ⟨hname, after, hafter, hfollows⟩ := h.step hinv hnames
    obtain ⟨final, hfinal, hlast⟩ := ih hfollows (hinv.take.foldl_release hnames _)
    exact ⟨final, (run_next hname hafter).trans hfinal, hlast⟩

/-- Each type is taken out of the table once. -/
theorem handOver_eq {counters : List Counter} {drafts : List TypeDraft}
    (hnames : (counters.map (·.draft.name)).Nodup) (hdrafts : (drafts.map (·.name)).Nodup)
    (hmem : ∀ d ∈ drafts, ∃ c ∈ counters, c.draft = d) :
    handOver counters (drafts.map (·.name)) = drafts := by
  induction drafts generalizing counters with
  | nil => rfl
  | cons d rest ih =>
    obtain ⟨⟨c, hc, rfl⟩, hrest⟩ := List.forall_mem_cons.1 hmem
    obtain ⟨hd, hothers⟩ := List.nodup_cons.1 hdrafts
    have hfound := find?_of_nodup_map hnames hc
    rw [List.map_cons, handOver, hfound]
    dsimp only
    rw [ih (hnames.sublist (List.eraseP_sublist.map _)) hothers]
    intro e he
    obtain ⟨k, hk, rfl⟩ := hrest e he
    refine ⟨k, (List.mem_eraseP_of_neg ?_).2 hk, rfl⟩
    have hne : k.draft.name ≠ c.draft.name := fun heq => hd (List.mem_map.2 ⟨_, he, heq⟩)
    simpa using hne

end Schedule

/-! ## The order -/

section Started

variable {drafts : List TypeDraft} {first : Schedule}

/-- The work comes to the end, with the types that are taken without counters as well. -/
theorem Schedule.Follows.run_start (h : first.Follows drafts [] (DependencyOrder.start drafts))
    (hnames : (drafts.map (·.name)).Nodup) :
    ∃ final taken waiting, first.run = .ok final ∧
      take [] (DependencyOrder.start drafts) = (taken, waiting) ∧
      final.counters.map (·.draft) = drafts ∧ final.sorted = (taken.map (·.name)).reverse ∧
      final.next = taken.length ∧ (taken ++ waiting.map (·.draft)).Perm drafts := by
  have hinv := take_invariant hnames (start_invariant drafts)
  obtain ⟨final, hrun, hfinal⟩ := h.run (start_invariant drafts) hnames
  refine ⟨final, _, _, hrun, rfl, hfinal.table, ?_, hfinal.next, ?_⟩
  · simp [hfinal.sorted]
  · simpa [Queue.untaken] using hinv.perm

/-- With counters the order is the same. -/
theorem Schedule.Follows.order_eq (h : first.Follows drafts [] (DependencyOrder.start drafts))
    (hfirst : start drafts = .ok first) (hnames : (drafts.map (·.name)).Nodup) :
    orderByCounters drafts = .ok (order drafts) := by
  obtain ⟨final, taken, waiting, hrun, htake, htable, hsorted, -, hperm⟩ := h.run_start hnames
  have hlength : taken.length + waiting.length = final.counters.length := by
    have htables := congrArg List.length htable
    have hperms := hperm.length_eq
    simp at htables hperms
    omega
  rw [orderByCounters, hfirst, ok_bind, hrun, ok_bind, order, htake]
  cases waiting with
  | nil =>
    have hall : ¬ final.sorted.length < final.counters.length := by
      simp only [hsorted, List.length_reverse, List.length_map, ← hlength, List.length_nil]
      omega
    rw [List.map_nil, List.append_nil] at hperm
    have hcounters : (final.counters.map (·.draft.name)).Nodup := by
      rw [← htable, List.map_map] at hnames
      exact hnames
    rw [if_neg hall, hsorted, List.reverse_reverse,
      Schedule.handOver_eq hcounters ((hperm.map _).nodup_iff.2 hnames)]
    intro d hd
    rw [← htable] at hperm
    exact List.mem_map.1 (hperm.mem_iff.1 hd)
  | cons w rest =>
    have hless : final.sorted.length < final.counters.length := by
      simp only [hsorted, List.length_reverse, List.length_map, ← hlength, List.length_cons]
      omega
    rw [if_pos hless]

/-- No name is scheduled twice, and all that were scheduled are taken in the end. -/
theorem Schedule.Follows.run_ends (h : first.Follows drafts [] (DependencyOrder.start drafts))
    (hnames : (drafts.map (·.name)).Nodup) :
    ∃ final, first.run = .ok final ∧ final.sorted.Nodup ∧
      final.sorted ⊆ drafts.map (·.name) ∧ final.next = final.sorted.length := by
  obtain ⟨final, taken, waiting, hrun, -, -, hsorted, hnext, hperm⟩ := h.run_start hnames
  have hall := hperm.map (·.name)
  have htaken : (taken.map (·.name)).Sublist ((taken ++ waiting.map (·.draft)).map (·.name)) :=
    (List.sublist_append_left taken _).map _
  refine ⟨final, hrun, ?_, ?_, ?_⟩
  · rw [hsorted, List.nodup_reverse]
    exact (hall.nodup_iff.2 hnames).sublist htaken
  · intro name hname
    rw [hsorted, List.mem_reverse] at hname
    exact hall.mem_iff.1 (htaken.subset hname)
  · simp [hsorted, hnext]

end Started

theorem exists_uses_perm {drafts entries : List TypeDraft} (hperm : entries.Perm drafts) :
    (∃ d ∈ entries, 2 ^ 32 ≤ uses entries d.name) ↔ ∃ d ∈ drafts, 2 ^ 32 ≤ uses drafts d.name := by
  simp only [hperm.mem_iff, uses_perm hperm]

/-- A type that refers to itself is a circle of its own. -/
example : Circular [⟨"a", [("x", .set (.user "a"))]⟩] :=
  ⟨_, .single ⟨List.mem_singleton.2 rfl, List.mem_singleton.2 rfl, by decide⟩⟩

end Cql.DependencyOrder
