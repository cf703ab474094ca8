import NineP.Message

/-!
# Fresh fids

A client chooses its fids by counting. The count wraps; the values that name no
fid are passed over.

* `isReserved_firstFid`: a fid that is handed out is not a reserved value.
-/

namespace NineP

/-- Whether a value names no fid. -/
def isReservedFid (n : UInt32) : Bool := n == noFid || n == 0

/-- The count from which fids are taken. -/
structure FidSource where
  next : UInt32 := 1
  deriving DecidableEq, Repr

namespace FidSource

/-- The first of three successive values that is a fid. At most two values in a
row are reserved. -/
def firstFid (n : UInt32) : UInt32 :=
  if isReservedFid n then
    if isReservedFid (n + 1) then n + 2 else n + 1
  else n

/-- Take the next fid. -/
def take (s : FidSource) : UInt32 × FidSource :=
  let fid := firstFid s.next
  (fid, { next := fid + 1 })

/-- Take the next `count` fids. -/
def takeMany : (count : Nat) → FidSource → List UInt32
  | 0, _ => []
  | count + 1, s =>
    let (fid, s') := s.take
    fid :: takeMany count s'

theorem isReserved_firstFid (n : UInt32) : isReservedFid (firstFid n) = false := by
  simp only [firstFid]
  split
  · rename_i h
    split
    · rename_i h'
      simp only [isReservedFid, Bool.or_eq_true, beq_iff_eq] at h h'
      rcases h with rfl | rfl
      · rfl
      · rcases h' with h' | h' <;> cases h'
    · rename_i h'
      simpa using h'
  · rename_i h
    simpa using h

end FidSource

end NineP
