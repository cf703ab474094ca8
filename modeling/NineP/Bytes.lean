/-!
# Bytes and little-endian words

A byte string is a list of bytes. Every number of the protocol is an unsigned
word of one, two, four or eight bytes, the lowest byte first:

* `length_encode`: a word of `w` bytes is `w` bytes long;
* `decode_encode`: the bytes of a number that fits read back as that number;
* `encode_decode`: a byte string is the word of its own value.
-/

namespace NineP

/-- A string of bytes. -/
abbrev Bytes := List UInt8

namespace LittleEndian

/-- The `width` low bytes of `n`, the lowest first. -/
def encode : (width n : Nat) → Bytes
  | 0, _ => []
  | width + 1, n => UInt8.ofNat n :: encode width (n / 256)

/-- The number whose bytes are given, the lowest first. -/
def decode : Bytes → Nat
  | [] => 0
  | b :: bs => b.toNat + 256 * decode bs

/-- How many numbers a word of `width` bytes can hold. -/
def range : (width : Nat) → Nat
  | 0 => 1
  | width + 1 => 256 * range width

@[simp] theorem length_encode (width n : Nat) : (encode width n).length = width := by
  induction width generalizing n with
  | zero => rfl
  | succ width ih => simp [encode, ih]

theorem decode_lt (bs : Bytes) : decode bs < range bs.length := by
  induction bs with
  | nil => simp [decode, range]
  | cons b bs ih =>
    have hb : b.toNat < 256 := b.toNat_lt
    simp only [decode, List.length_cons, range]
    omega

/-- What a word keeps of a number is the number modulo the word's range. -/
theorem decode_encode_mod (width n : Nat) : decode (encode width n) = n % range width := by
  induction width generalizing n with
  | zero => simp [encode, decode, range, Nat.mod_one]
  | succ width ih =>
    have hb : (UInt8.ofNat n).toNat = n % 256 := by simp
    rw [encode, decode, ih, hb, range, Nat.mod_mul]

theorem decode_encode {width n : Nat} (h : n < range width) : decode (encode width n) = n := by
  rw [decode_encode_mod, Nat.mod_eq_of_lt h]

/-- A byte string is the word of its own value. -/
theorem encode_decode (bs : Bytes) : encode bs.length (decode bs) = bs := by
  induction bs with
  | nil => rfl
  | cons b bs ih =>
    have hb : b.toNat < 256 := b.toNat_lt
    have hd : (b.toNat + 256 * decode bs) / 256 = decode bs := by omega
    have hm : UInt8.ofNat (b.toNat + 256 * decode bs) = b := by
      apply UInt8.toNat_inj.mp
      rw [UInt8.toNat_ofNat']
      omega
    simp only [decode, List.length_cons, encode, hd, hm, ih]

end LittleEndian

/-- The first `n` bytes and the rest, if there are that many. It looks at no
more than `n` bytes. -/
def splitBytes? (n : Nat) (bs : Bytes) : Option (Bytes × Bytes) :=
  let front := bs.take n
  if front.length = n then some (front, bs.drop n) else none

theorem splitBytes?_eq_some_iff {n : Nat} {bs front rest : Bytes} :
    splitBytes? n bs = some (front, rest) ↔ bs = front ++ rest ∧ front.length = n := by
  simp only [splitBytes?]
  constructor
  · intro h
    split at h
    · rename_i hn
      simp only [Option.some.injEq, Prod.mk.injEq] at h
      obtain ⟨rfl, rfl⟩ := h
      exact ⟨(List.take_append_drop n bs).symm, hn⟩
    · simp at h
  · rintro ⟨rfl, rfl⟩
    simp

theorem splitBytes?_eq_none_iff {n : Nat} {bs : Bytes} :
    splitBytes? n bs = none ↔ bs.length < n := by
  simp only [splitBytes?, List.length_take]
  split <;> simp <;> omega

@[simp] theorem splitBytes?_append (front rest : Bytes) :
    splitBytes? front.length (front ++ rest) = some (front, rest) :=
  splitBytes?_eq_some_iff.2 ⟨rfl, rfl⟩

end NineP
