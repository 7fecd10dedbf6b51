import Mathlib.Data.List.Forall2
import Mathlib.Data.List.Nodup

/-!
Work on a list that stops at the first failure: it succeeds with a list of results exactly if it
succeeds with each of them in its place. Lists in the order of a key.
-/

namespace Cql

variable {ε α β : Type}

@[simp] theorem map_ok (f : α → β) (a : α) : (Except.ok a : Except ε α).map f = .ok (f a) := rfl

@[simp] theorem map_error (f : α → β) (e : ε) :
    (Except.error e : Except ε α).map f = .error e := rfl

@[simp] theorem pure_eq_ok (a : α) : (pure a : Except ε α) = .ok a := rfl

@[simp] theorem ok_bind (a : α) (f : α → Except ε β) : (Except.ok a >>= f) = f a := rfl

@[simp] theorem error_bind (e : ε) (f : α → Except ε β) :
    ((Except.error e : Except ε α) >>= f) = .error e := rfl

theorem map_ok_iff {f : α → β} {x : Except ε α} {b : β} :
    x.map f = .ok b ↔ ∃ a, x = .ok a ∧ f a = b := by
  cases x <;> simp [Except.map]

theorem mapError_ok_iff {ε' : Type} {f : ε → ε'} {x : Except ε α} {a : α} :
    x.mapError f = .ok a ↔ x = .ok a := by
  cases x <;> simp [Except.mapError]

theorem bind_ok_iff {f : α → Except ε β} {x : Except ε α} {b : β} :
    (x >>= f) = .ok b ↔ ∃ a, x = .ok a ∧ f a = .ok b := by
  cases x <;> simp [bind, Except.bind]

theorem map_error_iff {f : α → β} {x : Except ε α} {e : ε} : x.map f = .error e ↔ x = .error e := by
  cases x <;> simp [Except.map]

theorem bind_error_iff {f : α → Except ε β} {x : Except ε α} {e : ε} :
    (x >>= f) = .error e ↔ x = .error e ∨ ∃ a, x = .ok a ∧ f a = .error e := by
  cases x <;> simp [bind, Except.bind]

theorem mapError_error_iff {ε' : Type} {f : ε → ε'} {x : Except ε α} {e : ε'} :
    x.mapError f = .error e ↔ ∃ found, x = .error found ∧ e = f found := by
  cases x <;> simp [Except.mapError, eq_comm]

theorem pure_ok_iff {a b : α} : (pure a : Except ε α) = .ok b ↔ b = a := by
  rw [pure, Applicative.toPure]
  exact ⟨fun h => (Except.ok.inj h).symm, fun h => congrArg _ h.symm⟩

theorem foldlM_ok {σ : Type} (f : σ → α → σ) (state : σ) (xs : List α) :
    xs.foldlM (fun state a => (.ok (f state a) : Except ε σ)) state = .ok (xs.foldl f state) :=
  List.foldlM_pure

/-- Each result stands in the place of what it came from. -/
theorem mapM_ok_iff_forall₂ {f : α → Except ε β} {ys : List β} {xs : List α} :
    xs.mapM f = .ok ys ↔ List.Forall₂ (fun x y => f x = .ok y) xs ys := by
  induction xs generalizing ys with
  | nil => rw [List.mapM_nil, pure_ok_iff, List.forall₂_nil_left_iff]
  | cons x xs ih =>
    simp only [List.mapM_cons, bind_ok_iff, pure_ok_iff, ih, List.forall₂_cons_left_iff]
    constructor
    · rintro ⟨y, hy, rest, hrest, rfl⟩
      exact ⟨y, rest, hy, hrest, rfl⟩
    · rintro ⟨y, rest, hy, hrest, rfl⟩
      exact ⟨y, hy, rest, hrest, rfl⟩

/-- Work that stops was stopped by one of its steps. -/
theorem exists_of_mapM_error {f : α → Except ε β} {e : ε} {xs : List α} (h : xs.mapM f = .error e) :
    ∃ x ∈ xs, f x = .error e := by
  induction xs with
  | nil => cases h
  | cons x xs ih =>
    rw [List.mapM_cons, bind_error_iff] at h
    rcases h with hx | ⟨y, -, h⟩
    · exact ⟨x, List.mem_cons_self, hx⟩
    · rcases bind_error_iff.1 h with hxs | ⟨ys, -, h⟩
      · obtain ⟨z, hz, herror⟩ := ih hxs
        exact ⟨z, List.mem_cons_of_mem x hz, herror⟩
      · cases h

theorem exists_of_forall₂ {R : α → β → Prop} {xs : List α} {ys : List β} (h : List.Forall₂ R xs ys) :
    ∀ x ∈ xs, ∃ y, R x y := by
  induction h with
  | nil => exact fun x hx => absurd hx List.not_mem_nil
  | cons hxy _ ih => exact List.forall_mem_cons.2 ⟨⟨_, hxy⟩, ih⟩

/-- What every result has, whichever of the inputs it comes from. -/
theorem forall_of_forall₂ {R : α → β → Prop} {P : β → Prop} {xs : List α} {ys : List β}
    (h : List.Forall₂ R xs ys) (hR : ∀ x ∈ xs, ∀ y, R x y → P y) : ∀ y ∈ ys, P y := by
  induction h with
  | nil => exact fun y hy => absurd hy List.not_mem_nil
  | cons hxy _ ih =>
    obtain ⟨hx, hxs⟩ := List.forall_mem_cons.1 hR
    exact List.forall_mem_cons.2 ⟨hx _ hxy, ih hxs⟩

/-- Results that are determined by what they come from. -/
theorem eq_map_of_forall₂ {R : α → β → Prop} {f : α → β} {xs : List α} {ys : List β}
    (h : List.Forall₂ R xs ys) (hR : ∀ x ∈ xs, ∀ y, R x y → y = f x) : ys = xs.map f := by
  induction h with
  | nil => rfl
  | cons hxy _ ih =>
    obtain ⟨hx, hxs⟩ := List.forall_mem_cons.1 hR
    rw [List.map_cons, hx _ hxy, ih hxs]

theorem exists_forall₂ {R : α → β → Prop} {xs : List α} (h : ∀ x ∈ xs, ∃ y, R x y) :
    ∃ ys, List.Forall₂ R xs ys := by
  induction xs with
  | nil => exact ⟨[], .nil⟩
  | cons x xs ih =>
    obtain ⟨⟨y, hy⟩, hxs⟩ := List.forall_mem_cons.1 h
    obtain ⟨ys, hys⟩ := ih hxs
    exact ⟨y :: ys, .cons hy hys⟩

/-- What is made of each result can as well be made at the end. -/
theorem mapM_map {γ : Type} (f : α → Except ε β) (g : β → γ) (xs : List α) :
    (xs.mapM fun x => (f x).map g) = (xs.mapM f).map (List.map g) := by
  induction xs with
  | nil => rfl
  | cons x xs ih =>
    rw [List.mapM_cons, List.mapM_cons, ih]
    cases f x with
    | error e => rfl
    | ok y => cases xs.mapM f <;> rfl

/-- Names go along with what they stand in front of. -/
theorem mapM_zip {f : α → Except ε β} {names : List String} {xs : List α}
    (hlength : names.length = xs.length) :
    ((names.zip xs).mapM fun (name, x) => (f x).map fun y => (name, y)) =
      (xs.mapM f).map names.zip := by
  induction xs generalizing names with
  | nil =>
    rw [List.length_eq_zero_iff.1 hlength]
    rfl
  | cons x xs ih =>
    cases names with
    | nil => cases hlength
    | cons name names =>
      rw [List.zip_cons_cons, List.mapM_cons, List.mapM_cons, ih (Nat.succ.inj hlength)]
      dsimp only
      cases f x with
      | error e => rfl
      | ok y => cases xs.mapM f <;> rfl

/-! ## Lists in the order of a key -/

section Key

variable {κ : Type} [LE κ] (key : α → κ)

/-- Sorting by a key puts the keys in order. -/
theorem pairwise_mergeSort_key [DecidableLE κ] (htrans : ∀ a b c : κ, a ≤ b → b ≤ c → a ≤ c)
    (htotal : ∀ a b : κ, a ≤ b ∨ b ≤ a) (l : List α) :
    (l.mergeSort fun a b => key a ≤ key b).Pairwise fun a b => key a ≤ key b := by
  have hle : ∀ a b c : α, decide (key a ≤ key b) = true → decide (key b ≤ key c) = true →
      decide (key a ≤ key c) = true := fun a b c hab hbc =>
    decide_eq_true (htrans _ _ _ (of_decide_eq_true hab) (of_decide_eq_true hbc))
  have hone : ∀ a b : α, (decide (key a ≤ key b) || decide (key b ≤ key a)) = true := fun a b => by
    simpa using htotal (key a) (key b)
  exact (List.pairwise_mergeSort hle hone l).imp of_decide_eq_true

/-- Elements in the order of their keys, none of which is repeated, are determined by which elements
there are. -/
theorem eq_of_perm_of_key (hantisymm : ∀ a b : κ, a ≤ b → b ≤ a → a = b) {l m : List α}
    (hperm : l.Perm m) (hnodup : (l.map key).Nodup) (hl : l.Pairwise fun a b => key a ≤ key b)
    (hm : m.Pairwise fun a b => key a ≤ key b) : l = m := by
  refine hperm.eq_of_pairwise (fun a b ha hb hab hba => ?_) hl hm
  exact List.inj_on_of_nodup_map hnodup ha (hperm.mem_iff.2 hb) (hantisymm _ _ hab hba)

end Key

/-- Where keys are not repeated, every entry is the first one of its key. -/
theorem find?_of_nodup_map {κ : Type} [DecidableEq κ] {key : α → κ} {l : List α}
    (hnodup : (l.map key).Nodup) {a : α} (h : a ∈ l) : l.find? (key · == key a) = some a := by
  induction l with
  | nil => exact absurd h List.not_mem_nil
  | cons b l ih =>
    obtain ⟨hhead, hnodup⟩ := List.nodup_cons.1 hnodup
    rcases List.mem_cons.1 h with rfl | h
    · exact List.find?_cons_of_pos (beq_self_eq_true _)
    · have hne : key b ≠ key a := fun heq => hhead (heq ▸ List.mem_map_of_mem h)
      rw [List.find?_cons_of_neg (by simpa using hne), ih hnodup h]

/-- Where names are not repeated, every entry is the first one of its name. -/
theorem find?_of_nodup {α : Type} {l : List (String × α)} (hnodup : (l.map (·.1)).Nodup)
    {name : String} {a : α} (h : (name, a) ∈ l) : l.find? (·.1 == name) = some (name, a) :=
  find?_of_nodup_map hnodup h

end Cql
