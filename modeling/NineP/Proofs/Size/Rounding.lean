import Mathlib.Algebra.Ring.Nat
import Mathlib.Data.Nat.Log
import NineP.Size

/-!
# Rounding keeps the order

A quotient is rounded to a whole number at most a half away. Equal distances are settled by
parity, so that no formula gives the result; but two facts are enough for the order. A number
that is rounded to a multiple of the divisor does not pass another multiple, and a rounded
quotient can only be greater than another one if the first dividend is:

* `two_mul_roundDiv_le`, `le_two_mul_roundDiv`: the distance;
* `roundDiv_mono`: quotients by one divisor;
* `roundDiv_mul_le`, `le_roundDiv_mul`: multiples of the divisor are not passed;
* `succ_le_roundDiv_iff`: an even number is reached from half-way on;
* `roundTo_mono`: numbers with a given number of significant bits, also across the powers of
  two where the divisor changes.
-/

namespace NineP.Size

variable {a b m n den : Nat}

/-! ## Quotients -/

/-- A quotient is rounded down if what is left is at most half of the divisor, and up if it is
at least half of it. -/
theorem roundDiv_cases (num den : Nat) :
    (roundDiv num den = num / den ∧ 2 * (num % den) ≤ den) ∨
      (roundDiv num den = num / den + 1 ∧ den ≤ 2 * (num % den)) := by
  rw [roundDiv]
  split
  · exact .inl ⟨rfl, by omega⟩
  · split
    · exact .inr ⟨rfl, by omega⟩
    · split
      · exact .inl ⟨rfl, by omega⟩
      · exact .inr ⟨rfl, by omega⟩

theorem two_mul_roundDiv_le (num den : Nat) :
    2 * (roundDiv num den * den) ≤ 2 * num + den := by
  have hdiv := Nat.div_add_mod' num den
  obtain ⟨hq, hr⟩ | ⟨hq, hr⟩ := roundDiv_cases num den
  · rw [hq]
    omega
  · rw [hq, Nat.add_one_mul (num / den)]
    omega

theorem le_two_mul_roundDiv (num : Nat) (h : 0 < den) :
    2 * num ≤ 2 * (roundDiv num den * den) + den := by
  have hdiv := Nat.div_add_mod' num den
  have hmod := Nat.mod_lt num h
  obtain ⟨hq, hr⟩ | ⟨hq, hr⟩ := roundDiv_cases num den
  · rw [hq]
    omega
  · rw [hq, Nat.add_one_mul (num / den)]
    omega

theorem roundDiv_mul_self (q : Nat) (h : 0 < den) : roundDiv (q * den) den = q := by
  have hless : 2 * 0 < den := h
  rw [roundDiv, Nat.mul_mod_left, if_pos hless, Nat.mul_div_cancel q h]

/-- The order of two dividends is the order of the rounded quotients. Where a tie goes does
not matter: dividends that are rounded past each other are both half-way and so the same. -/
theorem roundDiv_mono (hab : a ≤ b) (h : 0 < den) : roundDiv a den ≤ roundDiv b den := by
  by_contra hless
  have hstep : (roundDiv b den + 1) * den ≤ roundDiv a den * den :=
    Nat.mul_le_mul_right den (Nat.not_le.1 hless)
  rw [Nat.add_one_mul] at hstep
  have ha := two_mul_roundDiv_le a den
  have hb := le_two_mul_roundDiv b h
  obtain rfl : a = b := by omega
  exact hless (Nat.le_refl _)

/-- A number that is rounded to a multiple of `den` stays below each multiple above it. -/
theorem roundDiv_mul_le (hm : den ∣ m) (hn : n ≤ m) (h : 0 < den) :
    roundDiv n den * den ≤ m := by
  obtain ⟨q, rfl⟩ := hm
  rw [Nat.mul_comm den q] at hn ⊢
  have hq := roundDiv_mono hn h
  rw [roundDiv_mul_self q h] at hq
  exact Nat.mul_le_mul_right den hq

/-- It stays above each multiple below it. -/
theorem le_roundDiv_mul (hm : den ∣ m) (hn : m ≤ n) (h : 0 < den) :
    m ≤ roundDiv n den * den := by
  obtain ⟨q, rfl⟩ := hm
  rw [Nat.mul_comm den q] at hn ⊢
  have hq := roundDiv_mono hn h
  rw [roundDiv_mul_self q h] at hq
  exact Nat.mul_le_mul_right den hq

/-- A tie below an even number goes up to it. -/
theorem roundDiv_of_tie {q : Nat} (htie : 2 * n = 2 * (q * den) + den) (hodd : q % 2 = 1)
    (h : 0 < den) : roundDiv n den = q + 1 := by
  have hquot : n / den = q := by
    refine Nat.div_eq_of_lt_le (by omega) ?_
    rw [Nat.add_one_mul]
    omega
  have hdiv := Nat.div_add_mod' n den
  rw [hquot] at hdiv
  have hrest : 2 * (n % den) = den := by omega
  rw [roundDiv, hquot, hrest, if_neg (Nat.lt_irrefl den), if_neg (Nat.lt_irrefl den),
    if_neg (by omega)]

/-- A quotient is rounded to an even number, or past it, from half-way below that number on. -/
theorem succ_le_roundDiv_iff {q : Nat} (hodd : q % 2 = 1) (h : 0 < den) :
    q + 1 ≤ roundDiv n den ↔ (2 * q + 1) * den ≤ 2 * n := by
  have hhalf : (2 * q + 1) * den = 2 * (q * den) + den := by
    rw [Nat.add_one_mul (2 * q), Nat.mul_assoc]
  constructor
  · intro hle
    have hstep := Nat.mul_le_mul_right den hle
    have hnear := two_mul_roundDiv_le n den
    rw [Nat.add_one_mul] at hstep
    omega
  · intro hle
    by_contra hless
    have hstep := Nat.mul_le_mul_right den (Nat.le_of_lt_succ (Nat.not_le.1 hless))
    have hnear := le_two_mul_roundDiv n h
    -- What is rounded to less is at most half-way, so that it is half-way.
    have htie := roundDiv_of_tie (n := n) (by omega) hodd h
    omega

/-! ## Significant bits -/

/-- What the last bit that is kept of a number stands for. -/
def lastBit (bits n : Nat) : Nat := 2 ^ (Nat.log 2 n + 1 - bits)

theorem lastBit_pos (bits n : Nat) : 0 < lastBit bits n := Nat.two_pow_pos _

theorem lastBit_dvd_of_lt {bits : Nat} (h : n < 2 ^ bits) : lastBit bits n ∣ n := by
  by_cases h0 : n = 0
  · exact h0 ▸ Nat.dvd_zero _
  · have hlog := Nat.log_lt_of_lt_pow h0 h
    have hone : Nat.log 2 n + 1 - bits = 0 := by omega
    rw [lastBit, hone, Nat.pow_zero]
    exact Nat.one_dvd n

/-- A number with no more bits than are kept is a multiple of its last bit, so that it is not
changed. -/
theorem roundTo_eq (bits n : Nat) :
    roundTo bits n = roundDiv n (lastBit bits n) * lastBit bits n := by
  rw [roundTo, Nat.one_shiftLeft]
  split
  · rename_i hless
    have hdvd := lastBit_dvd_of_lt hless
    have hpos := lastBit_pos bits n
    exact Nat.le_antisymm (le_roundDiv_mul hdvd (Nat.le_refl n) hpos)
      (roundDiv_mul_le hdvd (Nat.le_refl n) hpos)
  · rw [Nat.one_shiftLeft, Nat.log2_eq_log_two]
    rfl

theorem roundTo_mono {bits : Nat} (hbits : 0 < bits) (hab : a ≤ b) :
    roundTo bits a ≤ roundTo bits b := by
  rw [roundTo_eq, roundTo_eq]
  obtain hlog | hlog := Nat.eq_or_lt_of_le (Nat.log_mono_right (b := 2) hab)
  · rw [lastBit, lastBit, hlog]
    exact Nat.mul_le_mul_right _ (roundDiv_mono hab (Nat.two_pow_pos _))
  -- Between numbers of different lengths there is a power of two.
  · have hb : b ≠ 0 := by
      rintro rfl
      exact Nat.not_lt_zero _ hlog
    calc roundDiv a (lastBit bits a) * lastBit bits a
        ≤ 2 ^ (Nat.log 2 a + 1) :=
          roundDiv_mul_le (Nat.pow_dvd_pow 2 (Nat.sub_le _ _))
            (Nat.le_of_lt (Nat.lt_pow_succ_log_self Nat.one_lt_two a)) (lastBit_pos bits a)
      _ ≤ 2 ^ Nat.log 2 b := Nat.pow_le_pow_right Nat.two_pos hlog
      _ ≤ roundDiv b (lastBit bits b) * lastBit bits b :=
          le_roundDiv_mul (Nat.pow_dvd_pow 2 (by omega)) (Nat.pow_log_le_self 2 hb)
            (lastBit_pos bits b)

end NineP.Size
