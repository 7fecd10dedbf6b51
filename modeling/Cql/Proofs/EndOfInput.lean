import Cql.Proofs.TypeParameters

/-!
Where the end of the input is told of. It is told behind the fragment in which something is missing, so
that it is the end of the whole input only if that is the fragment.
-/

namespace Cql

namespace TypeName

/-! ## Where parameters stand -/

/-- A part of a fragment that stands where it says, and not at the end. -/
def Inside (f q : Fragment) : Prop :=
  ∃ front back, f.text = front ++ (q.text ++ back) ∧ back ≠ [] ∧ q.offset = f.offset + front.length

theorem Inside.trans {f q r : Fragment} (hq : Inside f q) (hr : Inside q r) : Inside f r := by
  obtain ⟨front, back, hf, -, hoffset⟩ := hq
  obtain ⟨front', back', hq, hback, hoffset'⟩ := hr
  refine ⟨front ++ front', back' ++ back, ?_, by simp [hback], ?_⟩
  · rw [hf, hq]
    simp
  · rw [hoffset', hoffset, List.length_append, Nat.add_assoc]

theorem parametersFrom_inside {f : Fragment} {t behind : Text} {fragments : List Fragment}
    (h : parametersFrom f t = .ok (fragments, behind)) (ht : t <:+ f.text) :
    ∀ q ∈ fragments, Inside f q ∧ IsParameter q.text := by
  fun_induction parametersFrom f t generalizing fragments behind with
  | case1 => cases h
  | case2 =>
    cases h
    exact fun q hq => absurd hq List.not_mem_nil
  | case3 => cases h
  | case4 => cases h
  | case5 t c next hnext hclose after hhead rest hargs _ ih =>
    obtain ⟨⟨more, behind'⟩, hmore, hok⟩ := bind_ok_iff.1 h
    cases hok
    obtain ⟨hblank, sep, rfl, -, -⟩ := skipSeparator_eq_cons hnext
    obtain ⟨part, hpart, hparameter⟩ := isParameter hblank hhead hargs
    obtain ⟨front, hfront⟩ := ht
    obtain ⟨inner, hinner, -⟩ := parametersFrom_frame hmore
    have htext : (f.between (c :: next) rest).text = part := by
      rw [Fragment.between, hpart, Scanner.consumed_append]
    rw [hpart] at hfront
    have hinside : Inside f (f.between (c :: next) rest) := by
      refine ⟨front ++ sep, rest, ?_, by simp [hinner], ?_⟩
      · rw [htext, ← hfront]
        simp
      · rw [Fragment.between, hpart, ← hfront]
        simp only [List.length_append]
        omega
    have hrest : rest <:+ f.text := ⟨front ++ (sep ++ part), by rw [← hfront]; simp⟩
    exact List.forall_mem_cons.2 ⟨⟨hinside, htext ▸ hparameter⟩, ih hmore hrest⟩

theorem parameters_inside {f : Fragment} {t behind : Text} {fragments : List Fragment}
    (h : parameters f t = .ok (fragments, behind)) (ht : t <:+ f.text) :
    ∀ q ∈ fragments, Inside f q ∧ IsParameter q.text := by
  unfold parameters at h
  split at h
  · cases h
    exact fun q hq => absurd hq List.not_mem_nil
  · next c rest hnext =>
    split at h
    · obtain ⟨-, sep, rfl, -⟩ := skipSeparator_eq_cons hnext
      refine parametersFrom_inside h (.trans ?_ ht)
      exact (List.suffix_cons _ _).trans (List.suffix_append _ _)
    · cases h

theorem parts_inside {f q : Fragment} (h : q ∈ parts f) : Inside f q ∧ IsParameter q.text := by
  rw [parts] at h
  split at h
  · next c hcut =>
    obtain ⟨before, word, rest, head, hbefore, hword, hends, htext⟩ := exists_head_of_cut hcut
    rw [cut_word hbefore hword hends htext] at hcut
    rcases cutWord_behind hcut with ⟨hnone, -⟩ | hparameters
    · rw [hnone] at h
      cases h
    · refine parameters_inside hparameters ?_ q h
      rw [htext]
      exact (List.suffix_append _ _).trans (List.suffix_append _ _)
  · cases h

theorem descendants_inside {n : Nat} {f q : Fragment} (h : q ∈ descendants parts (n + 1) f) :
    Inside f q ∧ IsParameter q.text := by
  induction n generalizing f with
  | zero =>
    obtain ⟨c, hc, hq⟩ := (mem_descendants_succ parts).1 h
    cases List.mem_singleton.1 hq
    exact parts_inside hc
  | succ n ih =>
    obtain ⟨c, hc, hq⟩ := (mem_descendants_succ parts).1 h
    obtain ⟨hinside, hparameter⟩ := ih hq
    exact ⟨(parts_inside hc).1.trans hinside, hparameter⟩

/-- What is told of the end of the input comes from a fragment that is not cut. -/
theorem readBelow_endOfInput {limit levels : Nat} {f : Fragment} {stop : Stop}
    (h : readBelow limit levels f = .error stop) (hflaw : stop.flaw = .endOfInput) :
    ∃ n, ∃ q ∈ descendants parts n f, cut q = .error stop := by
  induction levels generalizing f with
  | zero =>
    cases h
    cases hflaw
  | succ levels ih =>
    rw [readBelow] at h
    rcases readWith_error h with hcut | ⟨p, hp, hstop⟩ | ⟨c, hbehind⟩
    · exact ⟨0, f, List.mem_singleton_self f, hcut⟩
    · obtain ⟨n, q, hq, hcut⟩ := ih hstop
      exact ⟨n + 1, q, (mem_descendants_succ parts).2 ⟨p, hp, hq⟩, hcut⟩
    · rw [hbehind] at hflaw
      cases hflaw

theorem read_endOfInput {limit : Nat} {input : Text} {fault : Fault}
    (h : read limit input = .error fault) (hflaw : fault.flaw = .endOfInput) :
    fault.position = input.length + 1 ∨
    ∃ n, ∃ q ∈ descendants parts (n + 1) ⟨input, 0⟩, ∃ before behind,
      input = before ++ (q.text ++ behind) ∧ behind ≠ [] ∧ q.offset = before.length ∧
      fault.position = (before ++ q.text).length + 1 ∧ Torn q.text := by
  rw [read, readLevel_eq] at h
  cases hread : readBelow limit (limit + 1) ⟨input, 0⟩ with
  | ok e =>
    rw [hread] at h
    cases h
  | error stop =>
    rw [hread] at h
    cases h
    obtain ⟨n, q, hq, hcut⟩ := readBelow_endOfInput hread hflaw
    cases n with
    | zero =>
      cases List.mem_singleton.1 hq
      refine .inl (((cut_misses _ stop hcut).1 hflaw).1.trans ?_)
      rw [Fragment.endPosition, Nat.zero_add]
    | succ n =>
      obtain ⟨⟨before, behind, hinput, hbehind, hoffset⟩, hparameter⟩ := descendants_inside hq
      obtain ⟨hposition, htorn⟩ := (cut_parameter_misses hparameter stop hcut).1 hflaw
      rw [Nat.zero_add] at hoffset
      refine .inr ⟨n, q, hq, before, behind, hinput, hbehind, hoffset, hposition.trans ?_, htorn⟩
      rw [Fragment.endPosition, hoffset, List.length_append]

end TypeName

/-- Where a type ends too early, the position that is told lies behind the whole input, or behind a
parameter at some depth in which a quoted name takes the last bracket in. Then more of the input
follows. -/
theorem TypePass.endOfInput_position (limit : Nat) (scope : TypeScope) (keyspace : String)
    (frozen : Bool) (input : Text) (fault : TypeName.Fault)
    (h : parse limit scope keyspace frozen input = .error fault ∨ collect limit input = .error fault)
    (hflaw : fault.flaw = .endOfInput) :
    (fault.position = input.length + 1 ∨
      ∃ n, ∃ q ∈ descendants TypeName.parts (n + 1) ⟨input, 0⟩, ∃ before behind,
        input = before ++ (q.text ++ behind) ∧ behind ≠ [] ∧ q.offset = before.length ∧
        fault.position = (before ++ q.text).length + 1 ∧ TypeName.Torn q.text) ∧
    ('"' ∉ input → fault.position = input.length + 1) := by
  have hread : TypeName.read limit input = .error fault := by
    rw [parse_eq, collect_eq] at h
    cases hread : TypeName.read limit input with
    | error found =>
      rw [hread] at h
      rcases h with h | h
      · cases h
        rfl
      · cases h
        rfl
    | ok e =>
      rw [hread] at h
      rcases h with h | h <;> cases h
  have hposition := TypeName.read_endOfInput hread hflaw
  refine ⟨hposition, fun hquote => hposition.resolve_right ?_⟩
  rintro ⟨n, q, -, before, behind, hinput, -, -, -, front, inner, htext, -⟩
  refine hquote ?_
  rw [hinput, htext]
  simp

/-- The name in the second parameter takes both brackets in. -/
theorem TypePass.endOfInput_position_map :
    ∃ fault, parse 64 .none "ks" false "map<int, list<\"é>>".toList = .error fault ∧
      fault.flaw = .endOfInput ∧ fault.position = 18 ∧
      ∃ n, ∃ q ∈ descendants TypeName.parts (n + 1) ⟨"map<int, list<\"é>>".toList, 0⟩,
        TypeName.Torn q.text := by
  have hparse : parse 64 .none "ks" false "map<int, list<\"é>>".toList =
      .error ⟨"map<int, list<\"é>>".toList, 18, .endOfInput⟩ := by decide +kernel
  obtain ⟨hwhole | ⟨n, q, hq, -, -, -, -, -, -, htorn⟩, -⟩ :=
    endOfInput_position 64 .none "ks" false _ _ (.inl hparse) rfl
  · exact absurd hwhole (by decide)
  · exact ⟨_, hparse, rfl, rfl, n, q, hq, htorn⟩

/-- Here the whole input has one character more than the position that is told. -/
theorem TypePass.endOfInput_in_parameter :
    parse 64 .none "ks" false "list<list<\"a>>".toList =
        .error ⟨"list<list<\"a>>".toList, 14, .endOfInput⟩ ∧
      collect 64 "list<list<\"a>>".toList = .error ⟨"list<list<\"a>>".toList, 14, .endOfInput⟩ ∧
      "list<list<\"a>>".toList.length + 1 = 15 :=
  ⟨by decide +kernel, by decide +kernel, by decide⟩

end Cql
