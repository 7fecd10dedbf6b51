import Cql.Number.Word
import Cql.Schema.DependencyOrder

/-!
Sorting user types with counters. The types stand in a table by name, in any order, each with a counter
of the references that types not yet taken make to it. A name is scheduled when its counter comes to
zero, and the types are taken in the order in which their names were scheduled; the order of the types
is that of their names, turned around. A counter has 32 bits: the work stops where one is to be counted
up from the greatest number, or down from zero.
-/

namespace Cql.DependencyOrder

open Word (Breakdown)

/-- An entry of the table. -/
structure Counter where
  draft : TypeDraft
  count : UInt32

/-- The table, and the names scheduled so far. The types of the first `next` of them are taken. -/
structure Schedule where
  counters : List Counter
  sorted : List String
  next : Nat

namespace Schedule

/-- Names that are not in the table have no counter. -/
def countUp (name : String) : List Counter → Except Breakdown (List Counter)
  | [] => .ok []
  | c :: rest =>
    if c.draft.name = name then (Word.up c.count).map fun count => ⟨c.draft, count⟩ :: rest
    else (countUp name rest).map (c :: ·)

/-- Answers the table, and whether the counter came to zero. -/
def countDown (name : String) : List Counter → Except Breakdown (List Counter × Bool)
  | [] => .ok ([], false)
  | c :: rest =>
    if c.draft.name = name then
      (Word.down c.count).map fun count => (⟨c.draft, count⟩ :: rest, count == 0)
    else (countDown name rest).map fun (rest, isZero) => (c :: rest, isZero)

/-- Counts references by their names. -/
def countAll (names : List String) (counters : List Counter) : Except Breakdown (List Counter) :=
  names.foldlM (fun counters name => countUp name counters) counters

/-- Counts all references, and schedules the types without any. -/
def start (drafts : List TypeDraft) : Except Breakdown Schedule :=
  (countAll (drafts.flatMap TypeDraft.references) (drafts.map (⟨·, 0⟩))).map fun counters =>
    ⟨counters, (counters.filter (·.count == 0)).map (·.draft.name), 0⟩

/-- Takes away one reference to the type of a name. -/
def release (s : Schedule) (name : String) : Except Breakdown Schedule :=
  (countDown name s.counters).map fun (counters, isZero) =>
    ⟨counters, if isZero then s.sorted ++ [name] else s.sorted, s.next⟩

def releaseAll (s : Schedule) (names : List String) : Except Breakdown Schedule :=
  names.foldlM release s

def find? (s : Schedule) (name : String) : Option TypeDraft :=
  (s.counters.find? (·.draft.name == name)).map (·.draft)

/-- Takes the type of a name that was scheduled. -/
def step (s : Schedule) (name : String) : Except Breakdown Schedule :=
  let taken : Schedule := ⟨s.counters, s.sorted, s.next + 1⟩
  match s.find? name with
  | none => .ok taken
  | some d => taken.releaseAll d.references

/-- How many names are scheduled, or will be as soon as nothing refers to them any more. -/
def size (s : Schedule) : Nat := s.counters.countP (·.count != 0) + s.sorted.length

theorem countP_countDown {name : String} {counters rest : List Counter} {isZero : Bool}
    (h : countDown name counters = .ok (rest, isZero)) :
    rest.countP (·.count != 0) + isZero.toNat = counters.countP (·.count != 0) := by
  fun_induction countDown name counters generalizing rest isZero with
  | case1 =>
    cases h
    rfl
  | case2 c others _ =>
    cases hdown : Word.down c.count with
    | error e =>
      rw [hdown] at h
      cases h
    | ok count =>
      have hne : c.count ≠ 0 := by
        rintro hzero
        rw [hzero] at hdown
        cases hdown
      rw [hdown] at h
      cases h
      by_cases hzero : count = 0 <;> simp [hzero, hne]
  | case3 c others _ ih =>
    cases hothers : countDown name others with
    | error e =>
      rw [hothers] at h
      cases h
    | ok found =>
      rw [hothers] at h
      cases h
      have := ih hothers
      rw [List.countP_cons, List.countP_cons]
      omega

theorem size_release {s after : Schedule} {name : String} (h : s.release name = .ok after) :
    after.size = s.size ∧ after.next = s.next := by
  rw [release] at h
  cases hcount : countDown name s.counters with
  | error e =>
    rw [hcount] at h
    cases h
  | ok found =>
    have := countP_countDown hcount
    rw [hcount] at h
    cases h
    obtain ⟨counters, isZero⟩ := found
    cases isZero with
    | false => simp_all [size]
    | true =>
      simp_all [size]
      omega

theorem size_releaseAll {names : List String} {s after : Schedule}
    (h : s.releaseAll names = .ok after) : after.size = s.size ∧ after.next = s.next := by
  induction names generalizing s with
  | nil =>
    cases h
    exact ⟨rfl, rfl⟩
  | cons name names ih =>
    rw [releaseAll, List.foldlM_cons] at h
    cases hone : s.release name with
    | error e =>
      rw [hone] at h
      cases h
    | ok one =>
      rw [hone] at h
      obtain ⟨hsize, hnext⟩ := size_release hone
      obtain ⟨hsizes, hnexts⟩ := ih h
      exact ⟨hsizes.trans hsize, hnexts.trans hnext⟩

theorem size_step {s after : Schedule} {name : String} (h : s.step name = .ok after) :
    after.size = s.size ∧ after.next = s.next + 1 := by
  rw [step] at h
  split at h
  · cases h
    exact ⟨rfl, rfl⟩
  · exact size_releaseAll h

/-- Takes types as long as a scheduled name is left. -/
def run (s : Schedule) : Except Breakdown Schedule :=
  match hname : s.sorted[s.next]? with
  | none => .ok s
  | some name =>
    match hstep : s.step name with
    | .error stop => .error stop
    | .ok after =>
      have : after.size - after.next < s.size - s.next := by
        obtain ⟨hsize, hnext⟩ := size_step hstep
        obtain ⟨hlt, -⟩ := List.getElem?_eq_some_iff.1 hname
        have : s.sorted.length ≤ s.size := Nat.le_add_left ..
        omega
      run after
termination_by s.size - s.next

/-- Takes the types of the names out of the table. -/
def handOver (counters : List Counter) : List String → List TypeDraft
  | [] => []
  | name :: names =>
    match counters.find? (·.draft.name == name) with
    | none => handOver counters names
    | some c => c.draft :: handOver (counters.eraseP (·.draft.name == name)) names

end Schedule

/-- The types in an order in which each comes after those it refers to. The list is what the table
happens to look like. -/
def orderByCounters (drafts : List TypeDraft) : Except Breakdown (Except SchemaFault (List TypeDraft)) := do
  let first ← Schedule.start drafts
  let s ← first.run
  .ok (if s.sorted.length < s.counters.length then .error .circularTypes
    else .ok (Schedule.handOver s.counters s.sorted.reverse))

end Cql.DependencyOrder
