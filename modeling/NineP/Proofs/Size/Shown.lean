import Mathlib.Algebra.Order.AbsoluteValue.Basic
import Mathlib.Algebra.Order.Field.Rat
import Mathlib.Tactic.FieldSimp
import Mathlib.Tactic.Linarith
import Mathlib.Tactic.NormNum
import Mathlib.Tactic.Ring
import NineP.Proofs.Size.Rounding
import NineP.Proofs.Text.Numerals

/-!
# Sizes that are read back

A size for people is read back as a decimal numeral and a unit. What is read is at most a
twentieth of the unit away from the number of bytes. Greater numbers are never read back as
smaller ones: with the same unit because rounding keeps the order, and with different units
because a number below the greater unit is not rounded past it:

* `read?`, `value?`: the number and the unit that a size is read as, and its bytes;
* `UnitOf`, `chooseUnit_units`: the unit that is chosen;
* `read?_text`: what is read back of a size;
* `abs_tenths_sub_le`, `tenths_mul_mono`: how near it is, and its order;
* `text_near_and_ordered`: both, in the words of a reader.
-/

namespace NineP.Size

/-! ## Reading -/

/-- The letters of the units, the smallest first. -/
def letters : List Char := ['B', 'K', 'M', 'G', 'T']

/-- The number that digits stand for, with or without a decimal point among them. -/
def readDecimal? (cs : List Char) : Option ℚ :=
  match Text.splitFirst? '.' cs with
  | none => (Text.readDigits? 10 cs).map fun n => (n : ℚ)
  | some (whole, decimals) => do
    let n ← Text.readDigits? 10 whole
    let d ← Text.readDigits? 10 decimals
    some (n + d / 10 ^ decimals.length)

/-- The number in a size and the index of the unit that it counts. -/
def read? (s : String) : Option (ℚ × Nat) := do
  let letter ← s.toList.getLast?
  let k ← letters.idxOf? letter
  let x ← readDecimal? s.toList.dropLast
  some (x, k)

/-- The number of bytes in a size. -/
def value? (s : String) : Option ℚ := (read? s).map fun (x, k) => x * 1024 ^ k

theorem readDecimal?_toString (n : Nat) : readDecimal? (toString n).toList = some (n : ℚ) := by
  have hnone : Text.splitFirst? '.' (Nat.toDigits 10 n) = none := by
    refine Option.eq_none_iff_forall_ne_some.2 fun (a, b) hsplit => ?_
    have hpoint : '.' ∈ Nat.toDigits 10 n := by
      rw [(Text.splitFirst?_eq_some hsplit).1]
      exact List.mem_append_right a List.mem_cons_self
    exact Text.not_mem_toDigits rfl n hpoint
  rw [Text.toList_toString, readDecimal?, hnone, Text.readDigits?_toDigits]
  rfl

/-- A number of tenths, with one digit behind the point. -/
theorem readDecimal?_tenths (n : Nat) :
    readDecimal? (toString (n / 10) ++ "." ++ toString (n % 10)).toList = some ((n : ℚ) / 10) := by
  have hnumeral : (toString (n / 10) ++ "." ++ toString (n % 10)).toList =
      Nat.toDigits 10 (n / 10) ++ '.' :: Nat.toDigits 10 (n % 10) := by
    simp
  have hone : (Nat.toDigits 10 (n % 10)).length = 1 := by
    rw [Nat.toDigits_of_lt_base (Nat.mod_lt n (by decide))]
    rfl
  have hsum : (n : ℚ) = 10 * (n / 10 : Nat) + (n % 10 : Nat) := by
    exact_mod_cast (Nat.div_add_mod n 10).symm
  rw [hnumeral, readDecimal?,
    Text.splitFirst?_append_cons (Text.not_mem_toDigits rfl (n / 10))]
  simp only [Text.readDigits?_toDigits, Option.bind_eq_bind, Option.bind_some, hone,
    Option.some.injEq]
  rw [hsum]
  ring

theorem idxOf?_letters : ∀ k < letters.length, letters[k]?.bind letters.idxOf? = some k := by
  decide

theorem read?_append {k : Nat} {letter : Char} (h : letters[k]? = some letter)
    (numeral : String) : read? (numeral ++ String.singleton letter) =
      (readDecimal? numeral.toList).map fun x => (x, k) := by
  obtain ⟨hk, -⟩ := List.getElem?_eq_some_iff.1 h
  have hindex := idxOf?_letters k hk
  rw [h, Option.bind_some] at hindex
  have hlast : (numeral ++ String.singleton letter).toList = numeral.toList ++ [letter] := by
    simp
  rw [read?, hlast, List.getLast?_concat, List.dropLast_concat, Option.bind_eq_bind,
    Option.bind_some, hindex]
  cases readDecimal? numeral.toList with
  | none => rfl
  | some x => rfl

/-! ## Units -/

/-- `k` is the index of the unit that fits `n`: the greatest that is not greater than `n`, if
there is one. -/
structure UnitOf (n k : Nat) : Prop where
  lt_length : k < letters.length
  le : 0 < k → 1024 ^ k ≤ n
  lt : k + 1 < letters.length → n < 1024 ^ (k + 1)

theorem UnitOf.mono {a b j k : Nat} (ha : UnitOf a j) (hb : UnitOf b k) (hab : a ≤ b) :
    j ≤ k := by
  by_contra hless
  have hkj : k + 1 ≤ j := Nat.not_le.1 hless
  have hpow : 1024 ^ (k + 1) ≤ 1024 ^ j := Nat.pow_le_pow_right (by decide) hkj
  have hj := ha.le (Nat.lt_of_lt_of_le (Nat.succ_pos k) hkj)
  have hk := hb.lt (Nat.lt_of_le_of_lt hkj ha.lt_length)
  omega

/-- From one unit the choice goes on to the next as long as the number is not below it. -/
theorem chooseUnit_spec (n scale : Nat) (name : String) (more : List String) :
    ∃ k, ∃ hk : k < (name :: more).length,
      chooseUnit n scale name more = (scale * 1024 ^ k, (name :: more)[k]) ∧
      (0 < k → scale * 1024 ^ k ≤ n) ∧
      (k + 1 < (name :: more).length → n < scale * 1024 ^ (k + 1)) := by
  induction more generalizing scale name with
  | nil => exact ⟨0, by simp, by simp [chooseUnit], by simp, by simp⟩
  | cons next more ih =>
    rw [chooseUnit]
    split
    · rename_i hle
      obtain ⟨k, hk, hchosen, hleast, hmost⟩ := ih (1024 * scale) next
      have hscale (i : Nat) : 1024 * scale * 1024 ^ i = scale * 1024 ^ (i + 1) := by
        rw [Nat.pow_succ', Nat.mul_comm 1024 scale, Nat.mul_assoc]
      rw [hscale] at hchosen hleast hmost
      refine ⟨k + 1, Nat.succ_lt_succ hk, hchosen, fun _ => ?_, fun h => ?_⟩
      · cases k with
        | zero => rwa [Nat.pow_one, Nat.mul_comm]
        | succ k => exact hleast (Nat.succ_pos k)
      · exact hmost (Nat.lt_of_succ_lt_succ h)
    · rename_i hless
      exact ⟨0, by simp, by simp, by simp, fun _ => by omega⟩

theorem name_eq_letter : ∀ k, ∀ h : k < ("B" :: units).length,
    letters[k]?.map String.singleton = some ("B" :: units)[k] := by
  decide

/-- The unit that is chosen fits, and it is named by its letter. -/
theorem chooseUnit_units (n : Nat) : ∃ k letter, UnitOf n k ∧ letters[k]? = some letter ∧
    chooseUnit n 1 "B" units = (1024 ^ k, String.singleton letter) := by
  obtain ⟨k, hk, hchosen, hleast, hmost⟩ := chooseUnit_spec n 1 "B" units
  obtain ⟨letter, hletter, hname⟩ := Option.map_eq_some_iff.1 (name_eq_letter k hk)
  simp only [Nat.one_mul] at hchosen hleast hmost
  exact ⟨k, letter, ⟨hk, hleast, hmost⟩, hletter, by rw [hchosen, hname]⟩

/-! ## Sizes -/

/-- The tenths of the unit `k` that are shown of `n` bytes. -/
def tenths (n k : Nat) : Nat := roundDiv (10 * n) (1024 ^ k)

/-- Bytes are not rounded. -/
theorem tenths_zero (n : Nat) : tenths n 0 = 10 * n := by
  have hself := roundDiv_mul_self (10 * n) Nat.one_pos
  rwa [Nat.mul_one] at hself

/-- A number that is shown with any unit but the last is not rounded to significant bits. -/
theorem UnitOf.roundTo_eq {bytes k : Nat} (h : UnitOf (roundTo 53 bytes) k)
    (hk : k + 1 < letters.length) : roundTo 53 bytes = bytes := by
  refine roundTo_of_lt (Nat.not_le.1 fun hle => ?_)
  have hmono : roundTo 53 (1 <<< 53) ≤ roundTo 53 bytes := roundTo_mono (by decide) hle
  have hpower : roundTo 53 (1 <<< 53) = 1 <<< 53 := by decide +kernel
  have hunit : 1024 ^ (k + 1) ≤ 1024 ^ 4 :=
    Nat.pow_le_pow_right (by decide) (Nat.le_of_lt_succ hk)
  have hless := h.lt hk
  rw [hpower] at hmono
  omega

/-- A size is read back as its tenths. -/
theorem read?_text (bytes : Nat) : ∃ k, UnitOf (roundTo 53 bytes) k ∧
    read? (text bytes) = some ((tenths (roundTo 53 bytes) k : ℚ) / 10, k) := by
  obtain ⟨k, letter, hk, hletter, hchosen⟩ := chooseUnit_units (roundTo 53 bytes)
  refine ⟨k, hk, ?_⟩
  rw [text, hchosen]
  cases k with
  | zero =>
    have hself := hk.roundTo_eq (by decide)
    simp only [Nat.pow_zero, if_true]
    rw [read?_append hletter, readDecimal?_toString, tenths_zero, hself]
    simp
  | succ k =>
    have hscale : 1024 ^ (k + 1) ≠ 1 := by simp
    simp only [if_neg hscale]
    rw [read?_append hletter, ← tenths, readDecimal?_tenths]
    rfl

/-- The bytes in a size are at most a twentieth of the unit away from the number. -/
theorem abs_tenths_sub_le (n k : Nat) :
    |(tenths n k : ℚ) / 10 * 1024 ^ k - n| ≤ 1 / 20 * 1024 ^ k := by
  have hpos : 0 < 1024 ^ k := Nat.pow_pos (by decide)
  have hupper : (2 * (tenths n k * 1024 ^ k) : ℚ) ≤ 2 * (10 * n) + 1024 ^ k := by
    exact_mod_cast two_mul_roundDiv_le (10 * n) (1024 ^ k)
  have hlower : (2 * (10 * n) : ℚ) ≤ 2 * (tenths n k * 1024 ^ k) + 1024 ^ k := by
    exact_mod_cast le_two_mul_roundDiv (10 * n) hpos
  exact abs_le.2 ⟨by linarith, by linarith⟩

/-- The bytes in a size do not decrease from a number to a greater one. -/
theorem tenths_mul_mono {a b j k : Nat} (ha : UnitOf a j) (hb : UnitOf b k) (hab : a ≤ b) :
    tenths a j * 1024 ^ j ≤ tenths b k * 1024 ^ k := by
  have hpos (i : Nat) : 0 < 1024 ^ i := Nat.pow_pos (by decide)
  obtain rfl | hjk := Nat.eq_or_lt_of_le (ha.mono hb hab)
  · exact Nat.mul_le_mul_right _ (roundDiv_mono (Nat.mul_le_mul_left 10 hab) (hpos j))
  -- The greater unit is a multiple of the smaller one and lies between the numbers.
  · have hless : a < 1024 ^ k :=
      Nat.lt_of_lt_of_le (ha.lt (Nat.lt_of_le_of_lt hjk hb.lt_length))
        (Nat.pow_le_pow_right (by decide) hjk)
    have hle := hb.le (Nat.lt_of_le_of_lt (Nat.zero_le j) hjk)
    calc tenths a j * 1024 ^ j
        ≤ 10 * 1024 ^ k :=
          roundDiv_mul_le (Dvd.dvd.mul_left (Nat.pow_dvd_pow 1024 (Nat.le_of_lt hjk)) 10)
            (Nat.mul_le_mul_left 10 (Nat.le_of_lt hless)) (hpos j)
      _ ≤ tenths b k * 1024 ^ k :=
          le_roundDiv_mul (Dvd.intro_left 10 rfl) (Nat.mul_le_mul_left 10 hle) (hpos k)

/-- What is read back of a size is at most a twentieth of its unit away from the number of
bytes, and it is the number itself if the unit is the byte. The size of a greater number is
never read back as fewer bytes, also if its unit is another one. -/
theorem text_near_and_ordered :
    (∀ bytes < 2 ^ 53, ∃ numeral k, read? (text bytes) = some (numeral, k) ∧
      |numeral * 1024 ^ k - bytes| ≤ 1 / 20 * 1024 ^ k ∧ (k = 0 → numeral = bytes)) ∧
    ∀ a b, a ≤ b → ∃ va vb, value? (text a) = some va ∧ value? (text b) = some vb ∧ va ≤ vb := by
  constructor
  · intro bytes hbytes
    have hexact : roundTo 53 bytes = bytes := roundTo_of_lt hbytes
    obtain ⟨k, -, hread⟩ := read?_text bytes
    rw [hexact] at hread
    refine ⟨_, k, hread, abs_tenths_sub_le bytes k, ?_⟩
    rintro rfl
    rw [tenths_zero]
    push_cast
    ring
  · intro a b hab
    obtain ⟨j, ha, hreada⟩ := read?_text a
    obtain ⟨k, hb, hreadb⟩ := read?_text b
    have hmono : (tenths (roundTo 53 a) j * 1024 ^ j : ℚ) ≤ tenths (roundTo 53 b) k * 1024 ^ k := by
      exact_mod_cast tenths_mul_mono ha hb (roundTo_mono (by decide) hab)
    refine ⟨_, _, by rw [value?, hreada]; rfl, by rw [value?, hreadb]; rfl, ?_⟩
    simp only
    linarith

/-- The last number that is shown in the smaller unit is read back as the first one that is
shown in the greater unit. -/
theorem text_near_and_ordered_below_mega :
    1048575 < 2 ^ 53 ∧ 1048575 ≤ 1048576 ∧
      (∃ numeral k, read? (text 1048575) = some (numeral, k) ∧
        |numeral * 1024 ^ k - (1048575 : Nat)| ≤ 1 / 20 * 1024 ^ k ∧ numeral = 1024 ∧ k = 1) ∧
      ∃ va vb, value? (text 1048575) = some va ∧ value? (text 1048576) = some vb ∧ va ≤ vb := by
  obtain ⟨hnear, hordered⟩ := text_near_and_ordered
  obtain ⟨numeral, k, hread, hdist, -⟩ := hnear 1048575 (by decide)
  have hvalue : read? (text 1048575) = some (1024, 1) := by decide +kernel
  rw [hvalue, Option.some.injEq, Prod.mk.injEq] at hread
  obtain ⟨rfl, rfl⟩ := hread
  exact ⟨by decide, by decide, ⟨1024, 1, hvalue, hdist, rfl, rfl⟩,
    hordered 1048575 1048576 (by decide)⟩

end NineP.Size
