import Cql.Address
import Cql.Proofs.Integers
import Cql.Proofs.Quoting

/-!
The printed form of an address is read back as the address. A long address prints the groups before and
behind its longest run of zeros, so that the reader can fill in the zeros again.
-/

namespace Cql

/-- Numbers without leading zeros do not start with a zero. -/
theorem Integer.head_digits {n : Nat} (h : 0 < n) : (digits n).head? ≠ some '0' := by
  induction n using Nat.strongRecOn with
  | ind n ih =>
    rw [digits, Nat.toDigits_eq_if (by decide)]
    split
    · rw [List.head?_cons]
      exact fun heq => Nat.ne_of_gt h (Nat.digitChar_eq_zero.1 (Option.some.inj heq))
    · rw [List.head?_append, List.head?_eq_some_head Nat.toDigits_ne_nil, Option.some_or,
        ← List.head?_eq_some_head]
      exact ih (n / 10) (by omega) (by omega)

/-! ## Groups of hexadecimal digits -/

namespace Hex

theorem digitValue_digitChar {d : Nat} (h : d < 16) : digitValue d.digitChar = some d := by
  have hall : ∀ k : Fin 16, digitValue (Nat.digitChar k) = some k.val := by decide
  exact hall ⟨d, h⟩

theorem isSome_of_mem_ofNat {n : Nat} : ∀ c ∈ ofNat n, (digitValue c).isSome = true := by
  induction n using Nat.strongRecOn with
  | ind n ih =>
    rw [ofNat, Nat.toDigits_eq_if (by decide)]
    split
    · next h =>
      rw [List.forall_mem_singleton, digitValue_digitChar h]
      rfl
    · intro c hc
      rcases List.mem_append.1 hc with hc | hc
      · exact ih (n / 16) (by omega) c hc
      · rw [List.mem_singleton.1 hc, digitValue_digitChar (Nat.mod_lt n (by decide))]
        rfl

theorem foldl_ofNat (n : Nat) :
    (ofNat n).foldl (fun n c => 16 * n + (digitValue c).getD 0) 0 = n := by
  induction n using Nat.strongRecOn with
  | ind n ih =>
    rw [ofNat, Nat.toDigits_eq_if (by decide)]
    split
    · next h => simp [digitValue_digitChar h]
    · rw [List.foldl_append]
      have hrest := ih (n / 16) (by omega)
      rw [ofNat] at hrest
      rw [hrest, List.foldl_cons, List.foldl_nil,
        digitValue_digitChar (Nat.mod_lt n (by decide))]
      exact Nat.div_add_mod n 16

end Hex

namespace Address

/-! ## Short addresses -/

theorem takeByte_digits (b : UInt8) {rest : Text}
    (hrest : ∀ c, rest.head? = some c → c.isDigit = false) :
    takeByte (Integer.digits b.toNat ++ rest) = some (b, rest) := by
  have hb := b.toNat_lt
  have hdigits := Integer.digits_isDigits b.toNat
  have hlength : (Integer.digits b.toNat).length ≤ 3 :=
    (Integer.length_digits_le_iff (by decide)).2 (by omega)
  have hzero : 1 < (Integer.digits b.toNat).length →
      (Integer.digits b.toNat).head? ≠ some '0' := by
    intro hlong
    refine Integer.head_digits (Nat.pos_of_ne_zero fun h => ?_)
    rw [h] at hlong
    exact absurd hlong (by decide)
  have hsmall : ¬ (255 < b.toNat) := by omega
  rw [takeByte, Text.spanWhile_append hdigits.all hrest]
  simp [hdigits.ne_nil, Integer.ofDigits_digits, hsmall, Nat.not_lt.2 hlength]
  exact hzero

/-- Four numbers with points between them are read from the front of a text. -/
theorem takeShort_printShort {bytes : Bytes} (h : bytes.length = 4) {rest : Text}
    (hrest : ∀ c, rest.head? = some c → c.isDigit = false) :
    takeShort (printShort bytes ++ rest) = some (bytes, rest) := by
  match bytes, h with
  | [a, b, c, d], _ =>
    have hdot : ∀ t : Text, ∀ e, ('.' :: t).head? = some e → e.isDigit = false := by
      intro t e he
      cases he
      rfl
    have hshape : printShort [a, b, c, d] ++ rest = Integer.digits a.toNat ++ '.' ::
        (Integer.digits b.toNat ++ '.' :: (Integer.digits c.toNat ++ '.' ::
          (Integer.digits d.toNat ++ rest))) := by
      simp [printShort, Text.join]
    rw [hshape, takeShort, takeByte_digits a (hdot _)]
    simp only [Option.bind_eq_bind, Option.bind_some, skipDot]
    rw [takeByte_digits b (hdot _)]
    simp only [Option.bind_some]
    rw [takeByte_digits c (hdot _)]
    simp only [Option.bind_some]
    rw [takeByte_digits d hrest]
    rfl

theorem takeByte_suffix {t rest : Text} {b : UInt8} (h : takeByte t = some (b, rest)) :
    rest <:+ t := by
  simp only [takeByte] at h
  split at h
  · cases h
  · split at h
    · cases h
    · cases h
      exact List.dropWhile_suffix _

/-- Without a point there is no short address. -/
theorem takeShort_eq_none {t : Text} (h : '.' ∉ t) : takeShort t = none := by
  rw [takeShort]
  cases hbyte : takeByte t with
  | none => rfl
  | some p =>
    obtain ⟨b, rest⟩ := p
    have hdot : skipDot rest = none := by
      cases rest with
      | nil => rfl
      | cons c rest =>
        have hc : c ≠ '.' := by
          rintro rfl
          exact h ((takeByte_suffix hbyte).subset List.mem_cons_self)
        rw [skipDot]
        exact fun _ heq => hc (List.cons.inj heq).1
    simp only [Option.bind_eq_bind, Option.bind_some, hdot]
    rfl

/-! ## Groups -/

/-- No group begins here. -/
def EndsGroup (t : Text) : Prop := ∀ c, t.head? = some c → Hex.digitValue c = none

theorem takeGroup_ofNat {n : Nat} (hn : n < 65536) {rest : Text} (hrest : EndsGroup rest) :
    takeGroup (Hex.ofNat n ++ rest) = some (n, rest) := by
  have hstop : ∀ c, rest.head? = some c → (Hex.digitValue c).isSome = false := by
    intro c hc
    rw [hrest c hc]
    rfl
  have hlength : (Hex.ofNat n).length ≤ 4 :=
    (Nat.length_toDigits_le_iff (by decide) (by decide)).2 hn
  have hne : Hex.ofNat n ≠ [] := Nat.toDigits_ne_nil
  rw [takeGroup, Text.spanWhile_append Hex.isSome_of_mem_ofNat hstop]
  simp [hne, Nat.not_lt.2 hlength, Hex.foldl_ofNat]

theorem takeGroup_eq_none {t : Text} (h : EndsGroup t) : takeGroup t = none := by
  have hspan : Text.spanWhile (fun c => (Hex.digitValue c).isSome) t = ([], t) :=
    Text.spanWhile_append (fun _ hc => absurd hc List.not_mem_nil) fun c hc => by
      rw [h c hc]
      rfl
  rw [takeGroup, hspan]
  rfl

/-- Groups with a colon in front of each. -/
def colonGroups (groups : List Nat) : Text := groups.flatMap fun g => ':' :: Hex.ofNat g

theorem printGroups_cons (g : Nat) (groups : List Nat) :
    printGroups (g :: groups) = Hex.ofNat g ++ colonGroups groups := by
  induction groups generalizing g with
  | nil => simp [printGroups, Text.join, colonGroups]
  | cons next groups ih =>
    have hrest := ih next
    simp only [printGroups, List.map_cons] at hrest
    simp only [printGroups, List.map_cons, Text.join, hrest, colonGroups, List.flatMap_cons,
      List.append_assoc, List.cons_append, List.nil_append]

/-- Where groups end: at the end of the text, or at two colons. -/
structure EndsGroups (t : Text) : Prop where
  noPoint : '.' ∉ t
  shape : t = [] ∨ ∃ rest, t = ':' :: ':' :: rest

theorem EndsGroups.endsGroup {t : Text} (h : EndsGroups t) : EndsGroup t := by
  intro c hc
  rcases h.shape with rfl | ⟨rest, rfl⟩
  · cases hc
  · cases hc
    rfl

theorem not_mem_ofNat {n : Nat} : '.' ∉ Hex.ofNat n := fun h =>
  absurd (Hex.isSome_of_mem_ofNat '.' h) (by decide)

theorem not_mem_colonGroups {groups : List Nat} : '.' ∉ colonGroups groups := by
  intro h
  obtain ⟨g, -, hg⟩ := List.mem_flatMap.1 h
  rcases List.mem_cons.1 hg with heq | hg
  · exact absurd heq (by decide)
  · exact not_mem_ofNat hg

theorem endsGroup_colonGroups (groups : List Nat) {rest : Text} (h : EndsGroup rest) :
    EndsGroup (colonGroups groups ++ rest) := by
  cases groups with
  | nil => exact h
  | cons g groups =>
    intro c hc
    cases hc
    rfl

/-- No group and no short address is read where groups end. -/
theorem takeGroups_stop (first : Bool) (limit : Nat) {t : Text} (h : EndsGroups t) :
    takeGroups first limit t = ([], false, t) := by
  cases limit with
  | zero => rfl
  | succ limit =>
    have hskip : (skipColon first t).bind takeShort = none ∧
        (skipColon first t).bind takeGroup = none := by
      cases first with
      | true => exact ⟨takeShort_eq_none h.noPoint, takeGroup_eq_none h.endsGroup⟩
      | false =>
        rcases h.shape with rfl | ⟨rest, rfl⟩
        · exact ⟨rfl, rfl⟩
        · refine ⟨takeShort_eq_none fun hmem => h.noPoint (List.mem_cons_of_mem _ hmem), ?_⟩
          have hcolon : EndsGroup (':' :: rest) := by
            intro c hc
            cases hc
            rfl
          exact takeGroup_eq_none hcolon
    rw [takeGroups]
    simp only [hskip, ite_self]

/-- One group, and then the others. -/
theorem takeGroups_step (first : Bool) {limit g : Nat} (hg : g < 65536) {groups : List Nat}
    {t rest : Text} (hrest : EndsGroups rest)
    (hskip : skipColon first t = some (Hex.ofNat g ++ (colonGroups groups ++ rest))) :
    takeGroups first (limit + 1) t =
      (g :: (takeGroups false limit (colonGroups groups ++ rest)).1,
        (takeGroups false limit (colonGroups groups ++ rest)).2) := by
  have hpoint : '.' ∉ colonGroups groups ++ rest := fun h =>
    (List.mem_append.1 h).elim not_mem_colonGroups hrest.noPoint
  have hshort : takeShort (Hex.ofNat g ++ (colonGroups groups ++ rest)) = none :=
    takeShort_eq_none fun h => (List.mem_append.1 h).elim not_mem_ofNat hpoint
  have hgroup := takeGroup_ofNat hg (endsGroup_colonGroups groups hrest.endsGroup)
  rw [takeGroups]
  simp only [hskip, Option.bind_some, hshort, ite_self, hgroup]

theorem takeGroups_colonGroups {groups : List Nat} (hgroups : ∀ g ∈ groups, g < 65536)
    {limit : Nat} (hlimit : groups.length ≤ limit) {rest : Text} (hrest : EndsGroups rest) :
    takeGroups false limit (colonGroups groups ++ rest) = (groups, false, rest) := by
  induction groups generalizing limit with
  | nil => exact takeGroups_stop false limit hrest
  | cons g groups ih =>
    obtain ⟨hg, hgroups⟩ := List.forall_mem_cons.1 hgroups
    cases limit with
    | zero => exact absurd hlimit (Nat.not_succ_le_zero _)
    | succ limit =>
      have hskip : skipColon false (colonGroups (g :: groups) ++ rest) =
          some (Hex.ofNat g ++ (colonGroups groups ++ rest)) := by
        simp [colonGroups, skipColon]
      rw [takeGroups_step false hg hrest hskip, ih hgroups (Nat.le_of_succ_le_succ hlimit)]

theorem takeGroups_printGroups {groups : List Nat} (hgroups : ∀ g ∈ groups, g < 65536)
    {limit : Nat} (hlimit : groups.length ≤ limit) {rest : Text} (hrest : EndsGroups rest) :
    takeGroups true limit (printGroups groups ++ rest) = (groups, false, rest) := by
  cases groups with
  | nil => exact takeGroups_stop true limit hrest
  | cons g groups =>
    obtain ⟨hg, hgroups⟩ := List.forall_mem_cons.1 hgroups
    cases limit with
    | zero => exact absurd hlimit (Nat.not_succ_le_zero _)
    | succ limit =>
      have hskip : skipColon true (printGroups (g :: groups) ++ rest) =
          some (Hex.ofNat g ++ (colonGroups groups ++ rest)) := by
        rw [printGroups_cons, List.append_assoc]
        rfl
      rw [takeGroups_step true hg hrest hskip,
        takeGroups_colonGroups hgroups (Nat.le_of_succ_le_succ hlimit) hrest]

theorem endsGroups_nil : EndsGroups [] := ⟨List.not_mem_nil, .inl rfl⟩

theorem not_mem_printGroups {groups : List Nat} : '.' ∉ printGroups groups := by
  cases groups with
  | nil => exact List.not_mem_nil
  | cons g groups =>
    rw [printGroups_cons]
    exact fun h => (List.mem_append.1 h).elim not_mem_ofNat not_mem_colonGroups

theorem takeLong_printGroups {groups : List Nat} (hgroups : ∀ g ∈ groups, g < 65536)
    (hlength : groups.length = 8) : takeLong (printGroups groups) = some (groups, []) := by
  have htake := takeGroups_printGroups hgroups (Nat.le_of_eq hlength) endsGroups_nil
  rw [List.append_nil] at htake
  simp only [takeLong, htake, hlength, if_true]

/-- Zeros are filled in where groups were left out. -/
theorem takeLong_compressed {head tail : List Nat} (hhead : ∀ g ∈ head, g < 65536)
    (htail : ∀ g ∈ tail, g < 65536) (hlength : head.length + tail.length < 8) :
    takeLong (printGroups head ++ ':' :: ':' :: printGroups tail) =
      some (head ++ List.replicate (8 - head.length - tail.length) 0 ++ tail, []) := by
  have hends : EndsGroups (':' :: ':' :: printGroups tail) := by
    refine ⟨fun h => ?_, .inr ⟨_, rfl⟩⟩
    simp only [List.mem_cons, false_or, Char.reduceEq] at h
    exact not_mem_printGroups h
  have hfirst := takeGroups_printGroups hhead (show head.length ≤ 8 by omega) hends
  have hsecond :=
    takeGroups_printGroups htail (show tail.length ≤ 7 - head.length by omega) endsGroups_nil
  rw [List.append_nil] at hsecond
  have hshort : ¬ head.length = 8 := by omega
  simp only [takeLong, hfirst, hshort, if_false, hsecond, Bool.false_eq_true]

/-! ## The longest run of zeros -/

/-- From a place on there are so many zeros. -/
def ZeroRun (groups : List Nat) (run : Nat × Nat) : Prop :=
  run.1 + run.2 ≤ groups.length ∧ ∀ i, run.1 ≤ i → i < run.1 + run.2 → groups[i]? = some 0

/-- A run that ends at a zero goes on with it; one starts there if none ends there. -/
theorem ZeroRun.next {before rest : List Nat} {current : Nat × Nat}
    (hcurrent : ZeroRun (before ++ 0 :: rest) current)
    (hend : current.2 ≠ 0 → current.1 + current.2 = before.length) :
    ∃ next : Nat × Nat,
      (if current.2 = 0 then (before.length, 1) else (current.1, current.2 + 1)) = next ∧
        ZeroRun (before ++ 0 :: rest) next ∧ next.1 + next.2 = before.length + 1 := by
  have hhere : (before ++ 0 :: rest)[before.length]? = some 0 := by simp
  by_cases hnone : current.2 = 0
  · refine ⟨_, if_pos hnone, ⟨by simp, fun i hlow hhigh => ?_⟩, rfl⟩
    rw [show i = before.length by omega, hhere]
  · have hat := hend hnone
    refine ⟨_, if_neg hnone, ⟨by simp; omega, fun i hlow hhigh => ?_⟩, by omega⟩
    by_cases hi : i = before.length
    · rw [hi, hhere]
    · exact hcurrent.2 i hlow (by omega)

/-- The run that ends at the place where the search stands is kept up with each further zero. -/
theorem longestRun_zeroRun (before rest : List Nat) {best current : Nat × Nat}
    (hbest : ZeroRun (before ++ rest) best) (hcurrent : ZeroRun (before ++ rest) current)
    (hend : current.2 ≠ 0 → current.1 + current.2 = before.length) :
    ZeroRun (before ++ rest) (longestRun best current before.length rest) := by
  induction rest generalizing before best current with
  | nil => exact hbest
  | cons g rest ih =>
    have hshift : before ++ g :: rest = (before ++ [g]) ++ rest := by simp
    have hlength : (before ++ [g]).length = before.length + 1 := by simp
    have hstep := @ih (before ++ [g])
    rw [hlength, ← hshift] at hstep
    rw [longestRun]
    by_cases hg : g = 0
    · subst hg
      obtain ⟨next, hnext, hrun, hat⟩ := hcurrent.next hend
      rw [if_pos rfl, hnext]
      refine hstep ?_ hrun fun _ => hat
      split
      · exact hrun
      · exact hbest
    · rw [if_neg hg]
      exact hstep hbest ⟨Nat.zero_le _, fun i _ h => absurd h (Nat.not_lt_zero i)⟩
        fun h => absurd rfl h

/-- A run of zeros can be left out and filled in again. -/
theorem ZeroRun.fill {groups : List Nat} {start length : Nat} (h : ZeroRun groups (start, length)) :
    groups.take start ++ List.replicate length 0 ++ groups.drop (start + length) = groups := by
  obtain ⟨hfits, hzero⟩ := h
  have hrun : (groups.drop start).take length = List.replicate length 0 := by
    refine List.ext_getElem? fun i => ?_
    rw [List.getElem?_take, List.getElem?_replicate, List.getElem?_drop]
    split
    · next hi => exact hzero (start + i) (Nat.le_add_right _ _) (Nat.add_lt_add_left hi start)
    · rfl
  rw [← hrun, List.append_assoc, ← List.drop_drop, List.take_append_drop, List.take_append_drop]

/-! ## Both forms -/

theorem groups_spec {bytes : Bytes} (h : bytes.length % 2 = 0) :
    (∀ g ∈ groups bytes, g < 65536) ∧ 2 * (groups bytes).length = bytes.length ∧
      ofGroups (groups bytes) = bytes := by
  fun_induction groups bytes with
  | case1 high low rest ih =>
    rw [List.length_cons, List.length_cons] at h
    obtain ⟨hbound, hlength, hback⟩ := ih (by omega)
    have hhigh := high.toNat_lt
    have hlow := low.toNat_lt
    refine ⟨List.forall_mem_cons.2 ⟨by omega, hbound⟩, by simp; omega, ?_⟩
    have hfirst : UInt8.ofNat ((high.toNat * 256 + low.toNat) / 256) = high := by
      rw [show (high.toNat * 256 + low.toNat) / 256 = high.toNat by omega, UInt8.ofNat_toNat]
    have hsecond : UInt8.ofNat ((high.toNat * 256 + low.toNat) % 256) = low := by
      rw [show (high.toNat * 256 + low.toNat) % 256 = low.toNat by omega, UInt8.ofNat_toNat]
    rw [ofGroups, List.flatMap_cons, hfirst, hsecond, ← ofGroups, hback]
    rfl
  | case2 bytes hshort =>
    match bytes, hshort with
    | [], _ => exact ⟨fun g hg => absurd hg List.not_mem_nil, rfl, rfl⟩
    | [_], _ => exact absurd h (by simp)
    | high :: low :: rest, hshort => exact absurd rfl (hshort high low rest)

theorem takeByte_colon (t : Text) : takeByte (':' :: t) = none := by
  have hspan : Text.spanWhile Char.isDigit (':' :: t) = ([], ':' :: t) := rfl
  rw [takeByte, hspan]
  rfl

theorem takeShort_colon (t : Text) : takeShort (':' :: t) = none := by
  rw [takeShort, takeByte_colon]
  rfl

/-- The form that ends with a short address. -/
theorem takeLong_mapped {bytes : Bytes} (h : bytes.length = 4) :
    takeLong ("::ffff:".toList ++ printShort bytes) =
      some ([0, 0, 0, 0, 0, 0xFFFF] ++ groups bytes, []) := by
  have hmapped : "::ffff:".toList ++ printShort bytes =
      ':' :: ':' :: (Hex.ofNat 0xFFFF ++ ':' :: printShort bytes) := by
    have hword : "::ffff:".toList = [':', ':', 'f', 'f', 'f', 'f', ':'] := by decide
    rw [hword]
    rfl
  have hend : ∀ c, ([] : Text).head? = some c → c.isDigit = false := fun c hc => by cases hc
  have hshort := takeShort_printShort h hend
  rw [List.append_nil] at hshort
  have hgroup : takeGroup (Hex.ofNat 0xFFFF ++ ':' :: printShort bytes) =
      some (0xFFFF, ':' :: printShort bytes) :=
    takeGroup_ofNat (by decide) fun c hc => by cases hc; rfl
  have hletter : takeShort (Hex.ofNat 0xFFFF ++ ':' :: printShort bytes) = none := by
    have hspan : takeByte (Hex.ofNat 0xFFFF ++ ':' :: printShort bytes) = none := rfl
    rw [takeShort, hspan]
    rfl
  have hlast : takeGroups false 6 (':' :: printShort bytes) = (groups bytes, true, []) := by
    rw [takeGroups]
    simp [skipColon, hshort]
  have hinner : takeGroups true 7 (Hex.ofNat 0xFFFF ++ ':' :: printShort bytes) =
      (0xFFFF :: groups bytes, true, []) := by
    rw [takeGroups]
    simp [skipColon, hletter, hgroup, hlast]
  have houter : takeGroups true 8 (':' :: ':' :: (Hex.ofNat 0xFFFF ++ ':' :: printShort bytes)) =
      ([], false, ':' :: ':' :: (Hex.ofNat 0xFFFF ++ ':' :: printShort bytes)) := by
    have hcolon : ∀ t, takeGroup (':' :: t) = none := fun t =>
      takeGroup_eq_none fun c hc => by cases hc; rfl
    rw [takeGroups]
    simp [skipColon, takeShort_colon, hcolon]
  have hcount : (groups bytes).length = 2 := by
    have := (groups_spec (show bytes.length % 2 = 0 by omega)).2.1
    omega
  rw [hmapped]
  simp [takeLong, houter, hinner, hcount]

theorem takeLong_printLong {bytes : Bytes} (h : bytes.length = 16) :
    takeLong (printLong bytes) = some (groups bytes, []) := by
  obtain ⟨hbound, hlength, -⟩ := groups_spec (show bytes.length % 2 = 0 by omega)
  have height : (groups bytes).length = 8 := by omega
  simp only [printLong]
  split
  · next hmapped =>
    have htail : groups (bytes.drop 12) = (groups bytes).drop 6 := by
      match bytes, h with
      | [_, _, _, _, _, _, _, _, _, _, _, _, _, _, _, _], _ => rfl
    rw [takeLong_mapped (by rw [List.length_drop, h]), htail, ← hmapped, List.take_append_drop]
  · have hempty : ∀ all, ZeroRun all (0, 0) := fun all =>
      ⟨Nat.zero_le _, fun i _ hi => absurd hi (Nat.not_lt_zero i)⟩
    have hrun : ZeroRun (groups bytes) (longestRun (0, 0) (0, 0) 0 (groups bytes)) :=
      longestRun_zeroRun [] (groups bytes) (hempty _) (hempty _) fun hne => absurd rfl hne
    generalize longestRun (0, 0) (0, 0) 0 (groups bytes) = run at hrun
    obtain ⟨start, length⟩ := run
    dsimp only
    split
    · next hlong =>
      have hfits : start + length ≤ (groups bytes).length := hrun.1
      have hhead : ∀ g ∈ (groups bytes).take start, g < 65536 := fun g hg =>
        hbound g (List.mem_of_mem_take hg)
      have htail : ∀ g ∈ (groups bytes).drop (start + length), g < 65536 := fun g hg =>
        hbound g (List.mem_of_mem_drop hg)
      have hhl : ((groups bytes).take start).length = start := by
        rw [List.length_take]
        omega
      have htl : ((groups bytes).drop (start + length)).length = 8 - (start + length) := by
        rw [List.length_drop, height]
      rw [takeLong_compressed hhead htail (by omega), hhl, htl,
        show 8 - start - (8 - (start + length)) = length by omega, hrun.fill]
    · exact takeLong_printGroups hbound height

theorem takeShort_printLong (bytes : Bytes) : takeShort (printLong bytes) = none := by
  simp only [printLong]
  split
  · have hword : "::ffff:".toList = ':' :: ":ffff:".toList := by decide
    rw [hword, List.cons_append, takeShort_colon]
  · split
    · refine takeShort_eq_none fun h => ?_
      simp only [List.mem_append, List.mem_cons, Char.reduceEq, false_or] at h
      exact h.elim not_mem_printGroups not_mem_printGroups
    · exact takeShort_eq_none not_mem_printGroups

theorem read_print (a : Address) : read a.print = some a := by
  cases a with
  | v4 bytes h =>
    have hend : ∀ c, ([] : Text).head? = some c → c.isDigit = false := fun c hc => by cases hc
    have hshort := takeShort_printShort h hend
    rw [List.append_nil] at hshort
    simp only [read, print, hshort, List.isEmpty_nil, if_true, ofBytes?, dif_pos h]
  | v6 bytes h =>
    have hback := (groups_spec (show bytes.length % 2 = 0 by omega)).2.2
    simp only [read, print, takeShort_printLong, takeLong_printLong h, hback, ofBytes?, h]
    rfl

/-! ## Characters -/

/-- Characters of addresses: those of names, and colons. -/
def IsMark (c : Char) : Prop := Identifier.isNameChar c = true ∨ c = ':'

theorem printShort_isMark {bytes : Bytes} : ∀ c ∈ printShort bytes, IsMark c := by
  intro c hc
  rcases Text.mem_join hc with hc | ⟨part, hpart, hc⟩
  · rw [List.mem_singleton.1 hc]
    exact .inl (by decide)
  · obtain ⟨b, -, rfl⟩ := List.mem_map.1 hpart
    exact .inl (Integer.isNameChar_of_isDigit ((Integer.digits_isDigits _).all c hc))

theorem isNameChar_of_digitValue {c : Char} (h : (Hex.digitValue c).isSome = true) :
    Identifier.isNameChar c = true := by
  have halnum : c.isAlphanum = true := by
    rw [Identifier.isAlphanum_iff]
    simp only [Hex.digitValue] at h
    split at h
    · omega
    · split at h
      · omega
      · split at h
        · omega
        · cases h
  simp [Identifier.isNameChar, halnum]

theorem printGroups_isMark {groups : List Nat} : ∀ c ∈ printGroups groups, IsMark c := by
  intro c hc
  rcases Text.mem_join hc with hc | ⟨part, hpart, hc⟩
  · exact .inr (List.mem_singleton.1 hc)
  · obtain ⟨g, -, rfl⟩ := List.mem_map.1 hpart
    exact .inl (isNameChar_of_digitValue (Hex.isSome_of_mem_ofNat c hc))

theorem print_isMark {a : Address} : ∀ c ∈ a.print, IsMark c := by
  cases a with
  | v4 bytes h => exact printShort_isMark
  | v6 bytes h =>
    intro c hc
    simp only [print, printLong] at hc
    split at hc
    · rcases List.mem_append.1 hc with hc | hc
      · have hall : ("::ffff:".toList.all fun c => Identifier.isNameChar c || c == ':') = true := by
          decide
        have hmark := List.all_eq_true.1 hall c hc
        rwa [Bool.or_eq_true, beq_iff_eq] at hmark
      · exact printShort_isMark c hc
    · split at hc
      · rcases List.mem_append.1 hc with hc | hc
        · exact printGroups_isMark c hc
        · rcases List.mem_cons.1 hc with rfl | hc
          · exact .inr rfl
          · rcases List.mem_cons.1 hc with rfl | hc
            · exact .inr rfl
            · exact printGroups_isMark c hc
      · exact printGroups_isMark c hc

theorem IsMark.isBlank {c : Char} (h : IsMark c) : Text.isBlank c = false := by
  rcases h with h | rfl
  · exact Identifier.isBlank_of_isNameChar h
  · decide

theorem quote_not_mem_print (a : Address) : '\x27' ∉ a.print := fun h =>
  (print_isMark _ h).elim (by decide) (by decide)

end Address

end Cql
