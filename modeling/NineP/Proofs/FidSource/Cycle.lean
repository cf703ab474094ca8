import Mathlib.Algebra.Ring.Nat
import Mathlib.Data.List.Nodup
import NineP.FidSource

/-!
# The cycle of fids

The count from which fids are taken passes over the two values that name none, which are
next to each other. So what is taken goes round through all other values, each behind
the one before it, and the first fid behind the last:

* `FidSource.Counting`: counting on to the next fid, one value at a time;
* `FidSource.counting_iff`: it ends after at most three values, with the fid that is taken;
* `FidSource.takeMany_eq`: the fids that are taken in a row, by their numbers;
* `FidSource.taken_in_a_row`: they are in succession, and no two of them are equal as long
  as they are no more than there are fids.
-/

namespace NineP

/-- The number of fids after which the count comes to a value that is none. -/
def fidSupply : Nat := 2 ^ 32 - 2

namespace FidSource

/-- The count itself is handed out, unless it is a value that names no fid. -/
theorem take_of_lt {s : FidSource} (h : 0 < s.next.toNat)
    (h' : s.next.toNat < 2 ^ 32 - 1) : s.take = (s.next, { next := s.next + 1 }) := by
  have hzero : (0 : UInt32).toNat = 0 := rfl
  have hno : noFid.toNat = 2 ^ 32 - 1 := rfl
  have hres : isReservedFid s.next = false := by
    rw [isReservedFid, Bool.or_eq_false_iff]
    constructor
    · rw [beq_eq_false_iff_ne]
      intro he
      have := congrArg UInt32.toNat he
      omega
    · rw [beq_eq_false_iff_ne]
      intro he
      have := congrArg UInt32.toNat he
      omega
  rw [take, firstFid, hres]
  rfl

/-- Until the count comes round, each fid counts it up by one. -/
theorem toNat_take_of_lt {s : FidSource} (h : 0 < s.next.toNat) (h' : s.next.toNat < 2 ^ 32 - 1) :
    s.take.1 = s.next ∧ s.take.2.next.toNat = s.next.toNat + 1 := by
  rw [take_of_lt h h']
  refine ⟨rfl, ?_⟩
  show (s.next + 1).toNat = _
  rw [UInt32.toNat_add]
  exact Nat.mod_eq_of_lt (show s.next.toNat + 1 < 2 ^ 32 by omega)

/-! ## Counting on -/

/-- Counting on from a source until a value is a fid: after so many values it is this fid,
and the source is left like that. -/
inductive Counting : FidSource → (values : Nat) → (fid : UInt32) → FidSource → Prop where
  | found {s : FidSource} : isReservedFid s.next = false →
    Counting s 1 s.next { next := s.next + 1 }
  | passed {s t : FidSource} {values : Nat} {fid : UInt32} : isReservedFid s.next = true →
    Counting { next := s.next + 1 } values fid t → Counting s (values + 1) fid t

theorem isReservedFid_iff {n : UInt32} : isReservedFid n = true ↔ n = noFid ∨ n = 0 := by
  simp [isReservedFid]

/-- Only the second of the values that name no fid is behind such a value. -/
theorem eq_noFid_of_reserved {n : UInt32} (h : isReservedFid n = true)
    (h' : isReservedFid (n + 1) = true) : n = noFid := by
  rcases isReservedFid_iff.1 h with rfl | rfl
  · rfl
  · exact absurd h' (by decide)

theorem counting_take (s : FidSource) :
    ∃ values, 1 ≤ values ∧ values ≤ 3 ∧ Counting s values s.take.1 s.take.2 := by
  by_cases h : isReservedFid s.next = true
  · by_cases h' : isReservedFid (s.next + 1) = true
    · have htake : s.take = (1, { next := 2 }) := by
        simp only [take, firstFid, eq_noFid_of_reserved h h']
        decide
      rw [htake]
      obtain ⟨next⟩ := s
      obtain rfl := eq_noFid_of_reserved h h'
      exact ⟨3, by decide, by decide, .passed h (.passed h' (.found rfl))⟩
    · have htake : s.take = (s.next + 1, { next := s.next + 1 + 1 }) := by
        simp [take, firstFid, h, h']
      rw [htake]
      exact ⟨2, by decide, by decide, .passed h (.found (by simpa using h'))⟩
  · have htake : s.take = (s.next, { next := s.next + 1 }) := by
      simp [take, firstFid, h]
    rw [htake]
    exact ⟨1, by decide, by decide, .found (by simpa using h)⟩

/-- Counting goes one way only. -/
theorem Counting.unique {s t t' : FidSource} {values values' : Nat} {fid fid' : UInt32}
    (h : Counting s values fid t) (h' : Counting s values' fid' t') :
    values = values' ∧ fid = fid' ∧ t = t' := by
  induction h generalizing values' with
  | found hs =>
    cases h' with
    | found => exact ⟨rfl, rfl, rfl⟩
    | passed hs' => simp [hs] at hs'
  | passed hs _ ih =>
    cases h' with
    | found hs' => simp [hs] at hs'
    | passed _ h' =>
      obtain ⟨rfl, rfl, rfl⟩ := ih h'
      exact ⟨rfl, rfl, rfl⟩

/-- Counting ends, and soon, and comes to what is taken. -/
theorem counting_iff (s : FidSource) :
    ∃ count, 1 ≤ count ∧ count ≤ 3 ∧
      ∀ values fid t, Counting s values fid t ↔ values = count ∧ (fid, t) = s.take := by
  obtain ⟨count, hleast, hmost, htake⟩ := counting_take s
  refine ⟨count, hleast, hmost, fun values fid t => ⟨fun h => ?_, ?_⟩⟩
  · obtain ⟨rfl, rfl, rfl⟩ := h.unique htake
    exact ⟨rfl, rfl⟩
  · rintro ⟨rfl, h⟩
    rw [← h] at htake
    exact htake

/-! ## Fids in succession -/

/-- The fid behind another one. -/
def succFid (fid : UInt32) : UInt32 := if fid.toNat = fidSupply then 1 else fid + 1

theorem toNat_first (s : FidSource) : 1 ≤ s.take.1.toNat ∧ s.take.1.toNat ≤ fidSupply := by
  have h : isReservedFid s.take.1 = false := isReserved_firstFid s.next
  simp only [isReservedFid, Bool.or_eq_false_iff, beq_eq_false_iff_ne, ne_eq,
    ← UInt32.toNat_inj] at h
  have hno : noFid.toNat = 2 ^ 32 - 1 := rfl
  have hzero : (0 : UInt32).toNat = 0 := rfl
  have hlt := s.take.1.toNat_lt
  simp only [fidSupply]
  omega

/-- The first fid is the count itself, unless that names none. -/
theorem take_fst (s : FidSource) :
    s.take.1 = if s.next = 0 ∨ s.next = noFid then 1 else s.next := by
  by_cases h : s.next = 0 ∨ s.next = noFid
  · rw [if_pos h]
    obtain ⟨next⟩ := s
    rcases h with rfl | rfl <;> rfl
  · rw [if_neg h]
    have hres : ¬ isReservedFid s.next = true := fun hr => h (isReservedFid_iff.1 hr).symm
    simp [take, firstFid, hres]

/-- The next fid is the one behind the first. -/
theorem take_take_fst (s : FidSource) : s.take.2.take.1 = succFid s.take.1 := by
  have h : isReservedFid s.take.1 = false := isReserved_firstFid s.next
  have hnext : s.take.2.next = s.take.1 + 1 := rfl
  rw [take_fst, hnext, succFid]
  generalize s.take.1 = fid at h
  simp only [isReservedFid, Bool.or_eq_false_iff, beq_eq_false_iff_ne, ne_eq] at h
  by_cases hlast : fid.toNat = fidSupply
  · obtain rfl : fid = 0xfffffffe := UInt32.toNat_inj.1 hlast
    decide
  · rw [if_neg hlast, if_neg]
    rintro (hzero | hno)
    · exact h.1 (by rw [← UInt32.add_sub_cancel fid 1, hzero]; rfl)
    · exact hlast (by rw [← UInt32.add_sub_cancel fid 1, hno]; rfl)

/-- The fid that is taken from a source after `i` others. -/
def nth (s : FidSource) (i : Nat) : UInt32 :=
  UInt32.ofNat ((s.take.1.toNat - 1 + i) % fidSupply + 1)

theorem toNat_nth (s : FidSource) (i : Nat) :
    (s.nth i).toNat = (s.take.1.toNat - 1 + i) % fidSupply + 1 := by
  refine UInt32.toNat_ofNat_of_lt' ?_
  have hlt : (s.take.1.toNat - 1 + i) % fidSupply < fidSupply := Nat.mod_lt _ (by decide)
  simp only [fidSupply] at hlt ⊢
  show _ < 2 ^ 32
  omega

theorem nth_zero (s : FidSource) : s.nth 0 = s.take.1 := by
  obtain ⟨hleast, hmost⟩ := s.toNat_first
  apply UInt32.toNat_inj.1
  rw [toNat_nth, Nat.add_zero, Nat.mod_eq_of_lt (by omega)]
  omega

/-- A fid and the one behind it have numbers in succession, on a circle. -/
theorem toNat_succFid {fid : UInt32} (hleast : 1 ≤ fid.toNat) (hmost : fid.toNat ≤ fidSupply) :
    (succFid fid).toNat - 1 = fid.toNat % fidSupply := by
  rw [succFid]
  split
  · rename_i h
    rw [h, Nat.mod_self]
    rfl
  · rename_i h
    have hlt : fid.toNat < fidSupply := by omega
    rw [UInt32.toNat_add, UInt32.toNat_one, Nat.mod_eq_of_lt hlt]
    simp only [fidSupply] at hlt
    omega

theorem nth_take (s : FidSource) (i : Nat) : s.take.2.nth i = s.nth (i + 1) := by
  obtain ⟨hleast, hmost⟩ := s.toNat_first
  apply UInt32.toNat_inj.1
  rw [toNat_nth, toNat_nth, take_take_fst, toNat_succFid hleast hmost, Nat.mod_add_mod]
  congr 2
  omega

/-- What is taken in a row are the fids one after the other. -/
theorem takeMany_eq (s : FidSource) (count : Nat) :
    s.takeMany count = (List.range count).map s.nth := by
  induction count generalizing s with
  | zero => rfl
  | succ count ih =>
    rw [List.range_succ_eq_map, List.map_cons, List.map_map, nth_zero]
    show s.take.1 :: s.take.2.takeMany count = _
    rw [ih]
    exact congrArg _ (List.map_congr_left fun i _ => s.nth_take i)

theorem getElem?_takeMany (s : FidSource) {count i : Nat} (h : i < count) :
    (s.takeMany count)[i]? = some (s.nth i) := by
  rw [takeMany_eq, List.getElem?_map, List.getElem?_range h]
  rfl

/-- A fid is as good as any to begin with. -/
theorem succFid_nth (s : FidSource) (i : Nat) : succFid (s.nth i) = s.nth (i + 1) := by
  induction i generalizing s with
  | zero => rw [nth_zero, ← take_take_fst, ← nth_zero, nth_take]
  | succ i ih => rw [← nth_take, ih, nth_take]

/-- Two fids are the same only if the count has come round between them. -/
theorem nth_inj {s : FidSource} {i j : Nat} (h : s.nth i = s.nth j) (hij : i < j + fidSupply)
    (hji : j < i + fidSupply) : i = j := by
  have hnumber := congrArg UInt32.toNat h
  rw [toNat_nth, toNat_nth] at hnumber
  simp only [fidSupply] at hnumber hij hji
  omega

/-- Two fids in a row differ, as there are more than one of them. -/
theorem take_take_ne (s : FidSource) : s.take.2.take.1 ≠ s.take.1 := by
  rw [← nth_zero, ← nth_zero, nth_take]
  intro h
  exact absurd (nth_inj h (by decide) (by decide)) (by decide)

/-- As long as the count does not come round it only grows. -/
theorem le_of_mem_takeMany {source : FidSource} {count : Nat} {fid : UInt32}
    (hpos : 0 < source.next.toNat) (hroom : source.next.toNat + count < 2 ^ 32)
    (hmem : fid ∈ source.takeMany count) : source.next.toNat ≤ fid.toNat := by
  rw [takeMany_eq, List.mem_map] at hmem
  obtain ⟨i, hi, rfl⟩ := hmem
  rw [List.mem_range] at hi
  obtain ⟨hfirst, -⟩ := toNat_take_of_lt hpos (by omega)
  rw [toNat_nth, hfirst, Nat.mod_eq_of_lt (by simp only [fidSupply]; omega)]
  omega

theorem nodup_takeMany (s : FidSource) (before : Nat) {count : Nat} (h : count ≤ fidSupply) :
    ((s.takeMany (before + count)).drop before).Nodup := by
  have hrow : (s.takeMany (before + count)).drop before =
      (List.range' before count).map s.nth := by
    rw [takeMany_eq, ← List.map_drop, List.range_eq_range', List.drop_range']
    congr 2 <;> omega
  rw [hrow]
  refine List.Nodup.map_on (fun i hi j hj he => nth_inj he ?_ ?_) List.nodup_range'
  all_goals
    rw [List.mem_range'_1] at hi hj
    omega

/-- Of the fids that are taken in a row, from whatever count on, none is a value that
names no fid. The first is the count itself, or 1 if that is such a value, and each other
is the one behind the fid before it, where 1 is behind the last; so that as many as there
are fids, wherever in the row, are distinct. And each of them is found by counting on for
at most three values. -/
theorem taken_in_a_row (first : UInt32) (before count : Nat) (hfew : count ≤ 2 ^ 32 - 2) :
    let fids := takeMany (before + count) { next := first }
    fids.length = before + count ∧ (fids.drop before).Nodup ∧
      (∀ fid ∈ fids, fid ≠ 0 ∧ fid ≠ noFid) ∧
      (∀ fid, fids[0]? = some fid → fid = if first = 0 ∨ first = noFid then 1 else first) ∧
      (∀ i fid next, fids[i]? = some fid → fids[i + 1]? = some next →
        next = if fid.toNat = 2 ^ 32 - 2 then 1 else fid + 1) ∧
      ∀ s : FidSource, ∃ steps, 1 ≤ steps ∧ steps ≤ 3 ∧
        ∀ values fid t, Counting s values fid t ↔ values = steps ∧ (fid, t) = s.take := by
  intro fids
  have hlength : fids.length = before + count := by
    rw [show fids = _ from takeMany_eq _ _, List.length_map, List.length_range]
  have hnth {i : Nat} {fid : UInt32} (h : fids[i]? = some fid) :
      fid = nth { next := first } i := by
    obtain ⟨hi, -⟩ := List.getElem?_eq_some_iff.1 h
    rw [getElem?_takeMany _ (hlength ▸ hi)] at h
    exact (Option.some.inj h).symm
  refine ⟨hlength, nodup_takeMany _ before hfew, fun fid hfid => ?_, fun fid h => ?_,
    fun i fid next h hnext => ?_, counting_iff⟩
  · obtain ⟨i, hi⟩ := List.getElem?_of_mem hfid
    have hnumber := toNat_nth { next := first } i
    rw [← hnth hi] at hnumber
    have hno : noFid.toNat = 2 ^ 32 - 1 := rfl
    have hless : (({ next := first } : FidSource).take.1.toNat - 1 + i) % fidSupply < fidSupply :=
      Nat.mod_lt _ (by decide)
    simp only [fidSupply] at hnumber hless
    constructor
    · rintro rfl
      rw [UInt32.toNat_zero] at hnumber
      omega
    · rintro rfl
      omega
  · rw [hnth h, nth_zero, take_fst]
  · rw [hnth h, hnth hnext, ← succFid_nth]
    rfl

/-- Four fids in a row from the last one on, behind the one before it. -/
theorem taken_in_a_row_over_the_end :
    4 ≤ 2 ^ 32 - 2 ∧ takeMany (1 + 4) { next := 0xfffffffd } = [0xfffffffd, 0xfffffffe, 1, 2, 3] ∧
      ((takeMany (1 + 4) { next := 0xfffffffd }).drop 1).Nodup ∧
      ∀ fid ∈ takeMany (1 + 4) { next := 0xfffffffd }, fid ≠ 0 ∧ fid ≠ noFid := by
  obtain ⟨-, hnodup, hfids, -⟩ := taken_in_a_row 0xfffffffd 1 4 (by decide)
  exact ⟨by decide, by decide, hnodup, hfids⟩

end FidSource

end NineP
