import NineP.Bytes
import NineP.Fault

/-!
# Writing bytes

Bytes are written into a sink, which either grows without bound or holds a
fixed number of bytes. A write that does not fit fills the sink up and fails. A
writer may fail half way; what it wrote before stays in the sink.

* `written_write_growing`: a growing sink takes every byte.
-/

namespace NineP

/-- A buffer that is being written. -/
structure Sink where
  /-- The bytes written so far, the last one first. -/
  reversed : Bytes := []
  /-- How many more bytes fit, if the buffer does not grow. -/
  room : Option Nat := none
  deriving Repr

namespace Sink

/-- A buffer that grows as it is written. -/
def growing : Sink := {}

/-- A buffer of a fixed size. -/
def bounded (size : Nat) : Sink := { room := some size }

/-- The bytes written so far, in order. -/
def written (s : Sink) : Bytes := s.reversed.reverse

end Sink

/-- An action that writes bytes and may fail; its effect on the sink stays. -/
abbrev Writer (α : Type) := ExceptT Fault (StateM Sink) α

namespace Writer

/-- Write bytes. -/
def write (bs : Bytes) : Writer Unit := ExceptT.mk fun s =>
  match s.room with
  | none => (.ok (), { s with reversed := bs.reverseAux s.reversed })
  | some room =>
    let front := bs.take room
    let rest := bs.drop room
    (if rest.isEmpty then .ok () else .error .bufferFull,
      { reversed := front.reverseAux s.reversed, room := some (room - front.length) })

/-- Run a writer on a sink. -/
def runOn (w : Writer α) (s : Sink) : Except Fault α × Sink := w.run s

/-- The sum of what `f` writes for each element, after `n` bytes. -/
def total (f : α → Writer Nat) (n : Nat) : List α → Writer Nat
  | [] => pure n
  | x :: xs => do
    let k ← f x
    total f (n + k) xs

theorem written_write_growing (bs : Bytes) (s : Sink) (h : s.room = none) :
    (write bs).runOn s = (.ok (), { s with reversed := bs.reverse ++ s.reversed }) := by
  simp [write, runOn, h, List.reverseAux_eq]

end Writer

end NineP
