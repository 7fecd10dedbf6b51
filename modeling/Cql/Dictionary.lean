/-!
Dictionaries with strings as keys. The entries stand in increasing order of their keys, each key once,
so that equal dictionaries have equal entries.
-/

namespace Cql

structure Dictionary (α : Type) where
  entries : List (String × α)
  sorted : entries.Pairwise fun a b => a.1 < b.1
  deriving DecidableEq, Repr

namespace Dictionary

variable {α β : Type}

def empty : Dictionary α := ⟨[], .nil⟩

def isEmpty (d : Dictionary α) : Bool := d.entries.isEmpty

def keys (d : Dictionary α) : List String := d.entries.map (·.1)

def values (d : Dictionary α) : List α := d.entries.map (·.2)

/-- Puts an entry in its place, instead of one with the same key. -/
def insertInto (key : String) (value : α) : List (String × α) → List (String × α)
  | [] => [(key, value)]
  | (k, v) :: rest =>
    if key < k then (key, value) :: (k, v) :: rest
    else if key = k then (key, value) :: rest
    else (k, v) :: insertInto key value rest

theorem mem_insertInto {key : String} {value : α} {entry : String × α}
    {entries : List (String × α)} (h : entry ∈ insertInto key value entries) :
    entry = (key, value) ∨ entry ∈ entries := by
  fun_induction insertInto key value entries <;> grind

theorem sorted_insertInto (key : String) (value : α) {entries : List (String × α)}
    (h : entries.Pairwise fun a b => a.1 < b.1) :
    (insertInto key value entries).Pairwise fun a b => a.1 < b.1 := by
  fun_induction insertInto key value entries with
  | case1 => simp
  | case2 k v rest hlt =>
    refine List.pairwise_cons.2 ⟨fun e he => ?_, h⟩
    rcases List.mem_cons.1 he with rfl | he
    · exact hlt
    · exact String.lt_trans hlt ((List.pairwise_cons.1 h).1 e he)
  | case3 v rest hlt => exact List.pairwise_cons.2 (List.pairwise_cons.1 h)
  | case4 k v rest hlt hne ih =>
    obtain ⟨hhead, htail⟩ := List.pairwise_cons.1 h
    refine List.pairwise_cons.2 ⟨fun e he => ?_, ih htail⟩
    rcases mem_insertInto he with rfl | he
    · grind
    · exact hhead e he

def insert (d : Dictionary α) (key : String) (value : α) : Dictionary α :=
  ⟨insertInto key value d.entries, sorted_insertInto key value d.sorted⟩

def erase (d : Dictionary α) (key : String) : Dictionary α :=
  ⟨d.entries.filter (·.1 != key), d.sorted.filter _⟩

def get? (d : Dictionary α) (key : String) : Option α :=
  (d.entries.find? (·.1 == key)).map (·.2)

/-- Of entries with the same key the last one counts. -/
def ofList (entries : List (String × α)) : Dictionary α :=
  entries.foldl (fun d (k, v) => d.insert k v) empty

def map (f : α → β) (d : Dictionary α) : Dictionary β :=
  ⟨d.entries.map fun (k, v) => (k, f v), d.sorted.map _ fun _ _ h => h⟩

theorem get?_empty (key : String) : (empty : Dictionary α).get? key = none := rfl

theorem get?_insert (d : Dictionary α) (key other : String) (value : α) :
    (d.insert key value).get? other = if key = other then some value else d.get? other := by
  obtain ⟨entries, sorted⟩ := d
  simp only [insert, get?]
  clear sorted
  fun_induction insertInto key value entries <;> grind

theorem get?_erase (d : Dictionary α) (key other : String) :
    (d.erase key).get? other = if key = other then none else d.get? other := by
  obtain ⟨entries, sorted⟩ := d
  simp only [erase, get?]
  clear sorted
  induction entries with
  | nil => simp
  | cons e rest ih => grind

end Dictionary

end Cql
