import NineP.Proofs.Size.Shown

/-!
# The unit of a size

The unit is chosen on the number of bytes: it is the greatest that is not greater than that
number, which is therefore at least one unit and less than the next. Then the number of units is
rounded to its last digit, and the digit carries: what is at most half a tenth of a unit below the
next one is shown as 1024.0 of the smaller unit, and not as 1.0 of the greater:

* `UnitOf.of_roundTo`: the unit fits the number itself, and not only its significant bits;
* `UnitOf.ten_le_tenths`, `UnitOf.tenths_le`: the least and the greatest number of tenths;
* `tenths_lt_iff`: the numbers of bytes that are shown with less than the greatest;
* `text_below_next_unit`: all sizes whose number is less than 1024.
-/

namespace NineP.Size

variable {n k bytes : Nat}

/-- Significant bits that are lost do not change the unit. -/
theorem UnitOf.of_roundTo (h : UnitOf (roundTo 53 bytes) k) : UnitOf bytes k := by
  by_cases hk : k + 1 < letters.length
  · rwa [h.roundTo_eq hk] at h
  · refine ⟨h.lt_length, fun hpos => Nat.not_lt.1 fun hless => ?_, fun hk' => absurd hk' hk⟩
    -- Numbers below the last unit have so few bits that they are kept.
    have hfour : k = 4 := by
      have hlength := h.lt_length
      simp only [letters, List.length_cons, List.length_nil] at hlength hk
      omega
    subst hfour
    have hself : roundTo 53 bytes = bytes := roundTo_of_lt (Nat.lt_trans hless (by decide))
    have hle := h.le hpos
    omega

/-- There is at least one of the unit. -/
theorem UnitOf.ten_le_tenths (h : UnitOf n k) (hk : 0 < k) : 10 ≤ tenths n k := by
  have hpos : 0 < 1024 ^ k := Nat.pow_pos (by decide)
  have hle : 10 * 1024 ^ k ≤ tenths n k * 1024 ^ k :=
    le_roundDiv_mul (Dvd.intro_left 10 rfl) (Nat.mul_le_mul_left 10 (h.le hk)) hpos
  exact Nat.le_of_mul_le_mul_right hle hpos

/-- There is at most one of the next unit. -/
theorem UnitOf.tenths_le (h : UnitOf n k) (hk : k + 1 < letters.length) :
    tenths n k ≤ 10240 := by
  have hpos : 0 < 1024 ^ k := Nat.pow_pos (by decide)
  have hless := h.lt hk
  rw [Nat.pow_succ'] at hless
  have hle : tenths n k * 1024 ^ k ≤ 10240 * 1024 ^ k :=
    roundDiv_mul_le (Dvd.intro_left 10240 rfl) (by omega) hpos
  exact Nat.le_of_mul_le_mul_right hle hpos

/-- There is less than one of the next unit, unless this is at most a twentieth of the unit away:
the number of tenths below it is odd, so that the tie goes up. -/
theorem tenths_lt_iff (n k : Nat) :
    tenths n k < 10240 ↔ 20 * n + 1024 ^ k < 20 * 1024 ^ (k + 1) := by
  have hpos : 0 < 1024 ^ k := Nat.pow_pos (by decide)
  have hreached : 10240 ≤ tenths n k ↔ (2 * 10239 + 1) * 1024 ^ k ≤ 2 * (10 * n) :=
    succ_le_roundDiv_iff (by decide) hpos
  rw [← Nat.not_le, hreached, Nat.pow_succ']
  omega

/-- A size is read back as at least one of its unit, which is the greatest that is not greater
than the number of bytes. It is read back as at most 1024 of it, if there is a greater unit, and as
less exactly if the number is more than a twentieth of its unit below the next. -/
theorem text_below_next_unit (bytes : Nat) :
    ∃ numeral k, read? (text bytes) = some (numeral, k) ∧ UnitOf bytes k ∧
      (0 < k → 1 ≤ numeral) ∧
      (k + 1 < letters.length → numeral ≤ 1024 ∧
        (numeral < 1024 ↔ 20 * bytes + 1024 ^ k < 20 * 1024 ^ (k + 1))) := by
  obtain ⟨k, hk, hread⟩ := read?_text bytes
  refine ⟨_, k, hread, hk.of_roundTo, fun hpos => ?_, fun hnext => ⟨?_, ?_⟩⟩
  · have hleast : (10 : ℚ) ≤ tenths (roundTo 53 bytes) k := by
      exact_mod_cast hk.ten_le_tenths hpos
    linarith
  · have hmost : (tenths (roundTo 53 bytes) k : ℚ) ≤ 10240 := by
      exact_mod_cast hk.tenths_le hnext
    linarith
  · rw [hk.roundTo_eq hnext, ← tenths_lt_iff bytes k, div_lt_iff₀ (by norm_num)]
    norm_num

/-- One byte less than a mebibyte is shown as `1024.0K`: not every size is less than the next
unit. -/
theorem not_text_below_next_unit :
    ¬ ∀ bytes < 2 ^ 53, ∀ numeral k, read? (text bytes) = some (numeral, k) →
      (k + 1 < letters.length → numeral < 1024) ∧ (0 < k → 1 ≤ numeral) := by
  intro h
  have hread : read? (text 1048575) = some (1024, 1) := by decide +kernel
  obtain ⟨hless, -⟩ := h 1048575 (by decide) 1024 1 hread
  exact lt_irrefl _ (hless (by decide))

end NineP.Size
