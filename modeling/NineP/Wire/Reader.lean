import NineP.Bytes
import NineP.Fault

/-!
# Reading bytes

A reader takes a value off the front of a byte string and leaves the rest. It
fails without saying how far it came.

* `take_append`: bytes that are there are read.
-/

namespace NineP

/-- An action that reads from the front of a byte string. -/
abbrev Reader (α : Type) := StateT Bytes (Except Fault) α

namespace Reader

/-- Read `n` bytes, or fail with `short`. -/
def take (n : Nat) (short : Fault) : Reader Bytes := fun bs =>
  match splitBytes? n bs with
  | some found => .ok found
  | none => .error short

/-- Read `n` values in front of those in `acc`, which stand in reverse. -/
def times (r : Reader α) : (n : Nat) → (acc : List α) → Reader (List α)
  | 0, acc => pure acc.reverse
  | n + 1, acc => do
    let x ← r
    times r n (x :: acc)

/-- Read values until no byte is left. Every value takes at least one byte, so
the length of the bytes bounds the number of values. -/
def exhaust (r : Reader α) (bs : Bytes) : Except Fault (List α) :=
  go bs.length [] bs
where
  go : Nat → List α → Bytes → Except Fault (List α)
    | _, acc, [] => .ok acc.reverse
    | 0, _, _ :: _ => .error .endOfInput
    | fuel + 1, acc, bs@(_ :: _) =>
      match r bs with
      | .ok (x, rest) => go fuel (x :: acc) rest
      | .error e => .error e

theorem take_append {n : Nat} {front rest : Bytes} (h : front.length = n) (short : Fault) :
    take n short (front ++ rest) = .ok (front, rest) := by
  subst h
  simp [take]

end Reader

end NineP
