import NineP.Error
import NineP.Wire.Codec

/-!
# Texts of a bounded size

A counted text for a destination of a given capacity. The count alone decides
whether the text fits; one that does not fit is left behind its count.

* `boundedText_of_lt`: a count beyond the capacity is an error whatever follows.
-/

namespace NineP

/-- Read a counted text of at most `capacity` bytes: the text, and the bytes
behind those that were read. -/
def boundedText (capacity : Nat) (bs : Bytes) : Except Error String × Bytes :=
  match Codec.u16.decode bs with
  | .error fault => (.error (.decode fault), bs)
  | .ok (n, rest) =>
    if n.toNat > capacity then (.error (.bufferTooSmall n.toNat capacity), rest)
    else
      match Codec.decodeText n.toNat rest with
      | .ok (s, rest) => (.ok s, rest)
      | .error fault => (.error (.decode fault), rest)

theorem boundedText_of_lt {capacity : Nat} {bs rest : Bytes} {n : UInt16}
    (h : Codec.u16.decode bs = .ok (n, rest)) (hn : capacity < n.toNat) :
    boundedText capacity bs = (.error (.bufferTooSmall n.toNat capacity), rest) := by
  simp [boundedText, h, hn]

end NineP
