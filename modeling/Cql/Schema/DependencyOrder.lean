import Cql.Schema.TypeRow

/-!
Putting user types in an order in which each one comes after those it refers to. Starting from the
types that none of the others refers to, a type is taken as soon as all types that refer to it are
taken; the order is that of taking, turned around. Types that are never taken refer to each other in
a circle.
-/

namespace Cql.DependencyOrder

/-- A type that is referred to by types not yet taken: once, and `more` times. There is no bound here; the
same work with counters of 32 bits stops where a type is referred to 2^32 times. -/
structure Waiting where
  draft : TypeDraft
  more : Nat

/-- Types that wait, and types that can be taken. -/
structure Queue where
  waiting : List Waiting
  ready : List TypeDraft

namespace Queue

def size (q : Queue) : Nat := q.waiting.length + q.ready.length

/-- Takes away one reference to the type of a name. Other names are of no interest. -/
def releaseIn (name : String) : List Waiting → List Waiting × Option TypeDraft
  | [] => ([], none)
  | w :: rest =>
    if w.draft.name = name then
      match w.more with
      | 0 => (rest, some w.draft)
      | more + 1 => (⟨w.draft, more⟩ :: rest, none)
    else
      let (rest, freed) := releaseIn name rest
      (w :: rest, freed)

/-- A type that nothing refers to any more becomes ready. -/
def release (q : Queue) (name : String) : Queue :=
  let (waiting, freed) := releaseIn name q.waiting
  ⟨waiting, q.ready ++ freed.toList⟩

theorem length_releaseIn (name : String) (waiting : List Waiting) :
    (releaseIn name waiting).1.length + (releaseIn name waiting).2.toList.length = waiting.length := by
  fun_induction releaseIn name waiting <;> grind

theorem size_release (q : Queue) (name : String) : (q.release name).size = q.size := by
  have := length_releaseIn name q.waiting
  simp only [release, size, List.length_append]
  omega

theorem size_foldl_release (names : List String) (q : Queue) :
    (names.foldl release q).size = q.size := by
  induction names generalizing q with
  | nil => rfl
  | cons name names ih => rw [List.foldl_cons, ih, size_release]

end Queue

/-- Takes types as long as one is ready, and answers them with the types that still wait. `taken` holds
the types that were taken before, the last one first. -/
def take (taken : List TypeDraft) (q : Queue) : List TypeDraft × List Waiting :=
  match q with
  | ⟨waiting, []⟩ => (taken, waiting)
  | ⟨waiting, d :: ready⟩ => take (d :: taken) (d.references.foldl Queue.release ⟨waiting, ready⟩)
termination_by q.size
decreasing_by
  rw [Queue.size_foldl_release]
  simp [Queue.size]

/-- How often the types refer to a name. -/
def uses (drafts : List TypeDraft) (name : String) : Nat :=
  (drafts.flatMap TypeDraft.references).count name

/-- The types that nothing refers to are ready, and all others wait. -/
def start (drafts : List TypeDraft) : Queue where
  waiting := drafts.filterMap fun d =>
    match uses drafts d.name with
    | 0 => none
    | more + 1 => some ⟨d, more⟩
  ready := drafts.filter fun d => uses drafts d.name == 0

/-- The types of different names in an order in which each comes after those it refers to. -/
def order (drafts : List TypeDraft) : Except SchemaFault (List TypeDraft) :=
  match take [] (start drafts) with
  | (taken, []) => .ok taken
  | (_, _ :: _) => .error .circularTypes

/-- Of types with the same name the last one counts. -/
def latest : List TypeDraft → List TypeDraft
  | [] => []
  | d :: rest => if rest.any (·.name == d.name) then latest rest else d :: latest rest

end Cql.DependencyOrder
