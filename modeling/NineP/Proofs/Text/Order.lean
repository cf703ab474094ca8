import Mathlib.Data.String.Basic
import NineP.Text.Utf8

/-!
# The order of texts

Texts are compared character by character. Their bytes come in the same order: the first
byte of a character tells how many follow, and those are its digits, the highest first.

* `encodeChar_eq`: the bytes of a character are a first one and its last digits;
* `encodeChar_append_lt`: so they tell two characters apart, whatever follows;
* `toBytes_lt`: the bytes of a lesser text are less;
* `toBytes_le`: and texts are in the order of their bytes.
-/

namespace NineP.Text

/-- The first byte decides, or what follows it. -/
theorem ofNat_cons_lt {m n : Nat} {xs ys : Bytes} (hn : n < 256)
    (h : m < n ∨ m = n ∧ xs < ys) : UInt8.ofNat m :: xs < UInt8.ofNat n :: ys := by
  rcases h with h | ⟨rfl, h⟩
  · refine .rel (UInt8.lt_iff_toNat_lt.2 ?_)
    rw [UInt8.toNat_ofNat_of_lt' hn, UInt8.toNat_ofNat_of_lt' (Nat.lt_trans h hn)]
    exact h
  · exact .cons h

/-- The front digits decide, or the last one. -/
theorem div_lt_or {v w : Nat} (h : v < w) (k : Nat) :
    v / k < w / k ∨ v / k = w / k ∧ v % k < w % k := by
  have hle : v / k ≤ w / k := Nat.div_le_div_right (Nat.le_of_lt h)
  rcases Nat.lt_or_eq_of_le hle with hlt | heq
  · exact .inl hlt
  · refine .inr ⟨heq, ?_⟩
    have hv := Nat.div_add_mod v k
    have hw := Nat.div_add_mod w k
    rw [heq] at hv
    omega

/-- The last `n` digits of a number, of six bits each, as bytes. -/
def digits : (n v : Nat) → Bytes
  | 0, _ => []
  | n + 1, v => UInt8.ofNat (v / 64 ^ n % 64 + 128) :: digits n v

/-- Digits tell numbers apart, whatever follows. -/
theorem digits_append_lt {n v w : Nat} (h : v % 64 ^ n < w % 64 ^ n) (xs ys : Bytes) :
    digits n v ++ xs < digits n w ++ ys := by
  induction n with
  | zero => simp only [Nat.pow_zero, Nat.mod_one, Nat.lt_irrefl] at h
  | succ n ih =>
    have hfront (v : Nat) : v % 64 ^ (n + 1) / 64 ^ n = v / 64 ^ n % 64 :=
      Nat.mod_mul_right_div_self ..
    have hlast (v : Nat) : v % 64 ^ (n + 1) % 64 ^ n = v % 64 ^ n :=
      Nat.mod_mul_right_mod ..
    have hor := div_lt_or h (64 ^ n)
    rw [hfront, hfront, hlast, hlast] at hor
    have hless : w / 64 ^ n % 64 < 64 := Nat.mod_lt _ (by decide)
    refine ofNat_cons_lt (by omega) ?_
    rcases hor with hor | ⟨heq, hor⟩
    · exact .inl (by omega)
    · exact .inr ⟨by omega, ih hor⟩

/-- How many bytes follow the first byte of a character. -/
def trail (v : Nat) : Nat :=
  if v ≤ 127 then 0 else if v ≤ 2047 then 1 else if v ≤ 65535 then 2 else 3

/-- What the first byte of a character has beside its digit. -/
def mark : (trail : Nat) → Nat
  | 0 => 0
  | 1 => 192
  | 2 => 224
  | _ => 240

/-- The first byte of a character. -/
def lead (v : Nat) : Nat := v / 64 ^ trail v + mark (trail v)

theorem toNat_lt (c : Char) : c.val.toNat < 1114112 := by
  rcases c.valid with hc | ⟨-, hc⟩
  · exact Nat.lt_trans hc (by decide)
  · exact hc

theorem encodeChar_eq (c : Char) : String.utf8EncodeChar c =
    UInt8.ofNat (lead c.val.toNat) :: digits (trail c.val.toNat) c.val.toNat := by
  have hmax := toNat_lt c
  simp only [String.utf8EncodeChar, lead, trail]
  split
  · simp [mark, digits]
  split
  · simp only [mark, digits]
    rw [Nat.mod_eq_of_lt (by omega)]
    simp
  split
  · simp only [mark, digits]
    rw [Nat.mod_eq_of_lt (by omega)]
    simp
  · simp only [mark, digits]
    rw [Nat.mod_eq_of_lt (by omega)]
    simp

theorem trail_cases (v : Nat) :
    trail v = 0 ∧ v ≤ 127 ∨ trail v = 1 ∧ 128 ≤ v ∧ v ≤ 2047 ∨
      trail v = 2 ∧ 2048 ≤ v ∧ v ≤ 65535 ∨ trail v = 3 ∧ 65536 ≤ v := by
  rw [trail]
  split
  · omega
  split
  · omega
  split <;> omega

/-- A character with more bytes has a greater first one. -/
theorem lead_lt_of_trail {v w : Nat} (h : v < w) (hw : w < 1114112) (hne : trail v ≠ trail w) :
    lead v < lead w := by
  rw [lead, lead]
  rcases trail_cases v with ⟨hv, _⟩ | ⟨hv, _⟩ | ⟨hv, _⟩ | ⟨hv, _⟩ <;>
    rcases trail_cases w with ⟨hw', _⟩ | ⟨hw', _⟩ | ⟨hw', _⟩ | ⟨hw', _⟩ <;>
    rw [hv, hw'] at hne ⊢ <;> simp only [mark] <;> omega

theorem lead_lt {v : Nat} (h : v < 1114112) : lead v < 256 := by
  rw [lead]
  rcases trail_cases v with ⟨hv, _⟩ | ⟨hv, _⟩ | ⟨hv, _⟩ | ⟨hv, _⟩ <;>
    rw [hv] <;> simp only [mark] <;> omega

/-- The bytes of two characters tell them apart, whatever follows. -/
theorem encodeChar_append_lt {c d : Char} (h : c < d) (xs ys : Bytes) :
    String.utf8EncodeChar c ++ xs < String.utf8EncodeChar d ++ ys := by
  have hlt : c.val.toNat < d.val.toNat := h
  have hmax := toNat_lt d
  rw [encodeChar_eq, encodeChar_eq, List.cons_append, List.cons_append]
  refine ofNat_cons_lt (lead_lt hmax) ?_
  by_cases htrail : trail c.val.toNat = trail d.val.toNat
  · rw [lead, lead, ← htrail]
    rcases div_lt_or hlt (64 ^ trail c.val.toNat) with hor | ⟨heq, hor⟩
    · exact .inl (Nat.add_lt_add_right hor _)
    · exact .inr ⟨by rw [heq], digits_append_lt hor xs ys⟩
  · exact .inl (lead_lt_of_trail hlt hmax htrail)

/-- The bytes of a text are those of its characters. -/
theorem toBytes_eq (s : String) : toBytes s = s.toList.flatMap String.utf8EncodeChar := by
  rw [toBytes, String.toUTF8, ← String.utf8Encode_toList, List.utf8Encode]
  simp

theorem encode_lt {cs ds : List Char} (h : cs < ds) :
    cs.flatMap String.utf8EncodeChar < ds.flatMap String.utf8EncodeChar := by
  induction h with
  | @nil d ds =>
    rw [List.flatMap_nil, List.flatMap_cons, encodeChar_eq, List.cons_append]
    exact .nil
  | rel h =>
    rw [List.flatMap_cons, List.flatMap_cons]
    exact encodeChar_append_lt h ..
  | @cons c cs ds _ ih =>
    rw [List.flatMap_cons, List.flatMap_cons]
    exact List.append_left_lt ih

/-- The bytes of a lesser text are less. -/
theorem toBytes_lt {s t : String} (h : s < t) : toBytes s < toBytes t := by
  rw [toBytes_eq, toBytes_eq]
  exact encode_lt (String.lt_iff_toList_lt.1 h)

/-- Texts are in the order of their bytes. -/
theorem toBytes_le {s t : String} (h : s ≤ t) : toBytes s ≤ toBytes t := by
  rcases lt_or_eq_of_le h with hlt | rfl
  · exact List.le_of_lt (toBytes_lt hlt)
  · exact List.le_refl _

theorem compare_bne_gt {s t : String} : (compare s t != .gt) = true ↔ s ≤ t :=
  bne_iff_ne.trans compare_le_iff_le

end NineP.Text
