import Cql.Proofs.ByteScans

/-!
A cursor only stands where a character of its text begins, or behind the last one. What was taken on the
way there is all that lies in front of it, and its position counts the characters of that.
-/

namespace Cql

open Text (byteSize byteSize_cons byteSize_append)

namespace Scanner

/-! ## Positions -/

theorem positionOf_go (position : Nat) (front rest : Text) :
    positionOf.go position (byteSize front) (front ++ rest) = some (position + front.length) := by
  induction front generalizing position with
  | nil => cases rest <;> rfl
  | cons c front ih =>
    have hpos := c.utf8Size_pos
    rw [List.cons_append, positionOf.go, byteSize_cons, if_neg (by omega), if_neg (by omega),
      Nat.add_sub_cancel_left, ih, List.length_cons, Nat.add_assoc, Nat.add_comm 1]

/-- The position of a rest counts the characters in front of it. -/
theorem positionOf_append (front rest : Text) :
    positionOf (front ++ rest) (byteSize rest) = some (front.length + 1) := by
  have hsize : byteSize (front ++ rest) - byteSize rest = byteSize front := by
    rw [byteSize_append, Nat.add_sub_cancel]
  have hle : ¬ byteSize (front ++ rest) < byteSize rest := by
    rw [byteSize_append]
    omega
  rw [positionOf, if_neg hle, hsize, positionOf_go, Nat.add_comm]

/-! ## Names -/

theorem skipIdentifier_takes {s name rest : Text} (h : skipIdentifier s = .ok (name, rest)) :
    s = name ++ rest ∧ name ≠ [] := by
  unfold skipIdentifier at h
  split at h
  · next inner =>
    split at h
    · next hquoted =>
      obtain ⟨front, hinner, -⟩ := afterQuotedName_eq_some hquoted
      cases h
      have hwhole : '"' :: inner = Identifier.quoted front ++ rest := by simp [hinner, Identifier.quoted]
      rw [hwhole, consumed_append]
      exact ⟨rfl, List.cons_ne_nil _ _⟩
    · cases h
  · dsimp only [Text.spanWhile] at h
    split at h
    · cases h
    · next hne =>
      cases h
      exact ⟨List.takeWhile_append_dropWhile.symm, by simpa using hne⟩

/-- A name that is not there is missed in front of the text or behind its first quote. -/
theorem skipIdentifier_error {s : Text} {f : Fault} (h : skipIdentifier s = .error f) :
    f.remaining <:+ s := by
  unfold skipIdentifier at h
  split at h
  · split at h
    · cases h
    · cases h
      exact List.suffix_cons _ _
  · dsimp only [Text.spanWhile] at h
    split at h
    · cases h
      exact List.suffix_refl s
    · cases h

theorem skipValue_error {s : Text} {f : Fault} (h : skipValue s = .error f) : f.remaining = s := by
  unfold skipValue at h
  split at h
  · cases h
    rfl
  · split at h
    · cases h
      rfl
    · split at h
      · cases h
        rfl
      · split at h
        · cases h
          rfl
        · cases h

theorem accept_cases (part s : Text) :
    (∃ rest, s = part ++ rest ∧ accept part s = .ok rest) ∨
      accept part s = .error ⟨s, .expected part⟩ := by
  rw [accept]
  split
  · next hprefix =>
    obtain ⟨rest, rfl⟩ := List.isPrefixOf_iff_prefix.1 hprefix
    exact .inl ⟨rest, rfl, by rw [List.drop_left]⟩
  · exact .inr rfl

end Scanner

namespace Cursor

/-! ## Moves -/

/-- What can be taken by a move. -/
def Move.Fits : Move → Text → Prop
  | .accept expected, part => part = expected
  | .skipBlanks, part => Text.Blank part
  | .takeWhile _, _ => True
  | .skipValue, part | .skipIdentifier, part => part ≠ []

theorem Move.take_ok {m : Move} {s part rest : Text} (h : m.take s = .ok (part, rest)) :
    s = part ++ rest ∧ m.Fits part := by
  cases m with
  | accept expected =>
    rw [Move.take] at h
    obtain ⟨later, rfl, haccept⟩ | haccept := Scanner.accept_cases expected s
    · rw [haccept] at h
      cases h
      exact ⟨rfl, rfl⟩
    · rw [haccept] at h
      cases h
  | skipBlanks =>
    cases h
    exact ⟨List.takeWhile_append_dropWhile.symm, List.all_eq_true.1 List.all_takeWhile⟩
  | takeWhile test =>
    have happend := Text.spanFrom_append test [] s
    rw [Except.ok.inj h] at happend
    exact ⟨happend.symm, trivial⟩
  | skipValue =>
    have hlength := Scanner.skipValue_length_lt h
    obtain ⟨rfl, -⟩ := Scanner.skipValue_takes h
    refine ⟨rfl, ?_⟩
    rintro rfl
    exact absurd hlength (Nat.lt_irrefl _)
  | skipIdentifier => exact Scanner.skipIdentifier_takes h

theorem Move.take_error {m : Move} {s : Text} {f : Scanner.Fault} (h : m.take s = .error f) :
    f.remaining <:+ s := by
  cases m with
  | accept expected =>
    rw [Move.take] at h
    obtain ⟨later, rfl, haccept⟩ | haccept := Scanner.accept_cases expected s
    · rw [haccept] at h
      cases h
    · rw [haccept] at h
      cases h
      exact List.suffix_refl s
  | skipBlanks => cases h
  | takeWhile => cases h
  | skipValue => exact Scanner.skipValue_error h ▸ List.suffix_refl s
  | skipIdentifier => exact Scanner.skipIdentifier_error h

end Cursor

namespace ByteScanner

/-! ## Runs -/

/-- What a further move does where `rest` is left behind `front`: it takes a part of the rest, or it fails
at a place that is not in front of the rest and not behind the end. -/
inductive Continues (front rest : Text) (m : Cursor.Move) : Except Halt (Text × Text) → Prop where
  | takes {part last : Text} (hpart : rest = part ++ last) (hfits : m.Fits part) :
    Continues front rest m (.ok (part, last))
  | fails {remaining position : Nat} {cause : Scanner.Cause}
    (hposition : Scanner.positionOf (front ++ rest) remaining = some position)
    (hfrom : front.length + 1 ≤ position) (hto : position ≤ (front ++ rest).length + 1) :
    Continues front rest m (.error (.fault remaining cause))

theorem take_continues (front rest : Text) (m : Cursor.Move) :
    Continues front rest m (take m rest) := by
  rw [take_eq]
  cases htake : m.take rest with
  | ok taken =>
    obtain ⟨part, last⟩ := taken
    obtain ⟨hpart, hfits⟩ := Cursor.Move.take_ok htake
    exact .takes hpart hfits
  | error f =>
    obtain ⟨passed, hpassed⟩ := Cursor.Move.take_error htake
    have hposition := Scanner.positionOf_append (front ++ passed) f.remaining
    rw [List.append_assoc, hpassed] at hposition
    refine .fails hposition ?_ ?_
    · rw [List.length_append]
      omega
    · rw [← hpassed, List.length_append, List.length_append, List.length_append]
      omega

/-- Moves over the bytes go the way of the moves over the characters, and take the text apart into what
they take and what they leave. -/
theorem run_eq (moves : List Cursor.Move) (s : Text) : ∃ parts rest, run moves s = some (parts, rest) ∧
    parts.flatten ++ rest = s ∧ ∀ whole, (Cursor.mk whole s).run moves = ⟨whole, rest⟩ := by
  induction moves generalizing s with
  | nil => exact ⟨[], s, rfl, rfl, fun _ => rfl⟩
  | cons m moves ih =>
    cases htake : m.take s with
    | ok taken =>
      obtain ⟨part, next⟩ := taken
      obtain ⟨rfl, -⟩ := Cursor.Move.take_ok htake
      obtain ⟨parts, rest, hrun, hparts, hcursor⟩ := ih next
      refine ⟨part :: parts, rest, ?_, ?_, fun whole => ?_⟩
      · rw [run, take_eq, htake]
        show (run moves next).map _ = _
        rw [hrun]
        rfl
      · rw [List.flatten_cons, List.append_assoc, hparts]
      · have hmove : (Cursor.mk whole (part ++ next)).move m = ⟨whole, next⟩ := by
          rw [Cursor.move, htake]
        rw [Cursor.run, List.foldl_cons, hmove]
        exact hcursor whole
    | error f =>
      obtain ⟨parts, rest, hrun, hparts, hcursor⟩ := ih s
      refine ⟨parts, rest, ?_, hparts, fun whole => ?_⟩
      · rw [run, take_eq, htake]
        exact hrun
      · have hmove : (Cursor.mk whole s).move m = ⟨whole, s⟩ := by rw [Cursor.move, htake]
        rw [Cursor.run, List.foldl_cons, hmove]
        exact hcursor whole

/-- Whatever moves are made from the beginning of a text: nothing breaks down, what the moves have taken
is what stands in front of the rest, its characters are what the position counts, and a further move
either takes a part of the rest, which is not empty for a value or a name, or points at a place in it. -/
theorem run_stays (whole : Text) (moves : List Cursor.Move) :
    ∃ parts rest, run moves whole = some (parts, rest) ∧
      (Cursor.start whole).run moves = ⟨whole, rest⟩ ∧
      whole = parts.flatten ++ rest ∧
      Slice.consumed? whole rest = some parts.flatten ∧
      Scanner.positionOf whole (byteSize rest) = some (1 + parts.flatten.length) ∧
      ∀ m, Continues parts.flatten rest m (take m rest) := by
  obtain ⟨parts, rest, hrun, hparts, hcursor⟩ := run_eq moves whole
  have hconsumed := Slice.consumed?_eq (List.suffix_append parts.flatten rest)
  have hposition := Scanner.positionOf_append parts.flatten rest
  rw [hparts] at hposition hconsumed
  rw [← hparts, Scanner.consumed_append, hparts] at hconsumed
  exact ⟨parts, rest, hrun, hcursor whole, hparts.symm, hconsumed, Nat.add_comm .. ▸ hposition,
    take_continues parts.flatten rest⟩

end ByteScanner

end Cql
