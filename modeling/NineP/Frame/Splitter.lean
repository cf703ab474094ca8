import NineP.Frame

/-!
# Splitting a stream into frames

A splitter collects the chunks of a stream and cuts the frames off its front.
It judges a size as soon as the four bytes of the size are there.
-/

namespace NineP

/-- The state of cutting a stream into frames. -/
structure Splitter where
  style : FrameStyle
  /-- The largest size that is accepted. -/
  max : Nat
  /-- The length of the frame under way, once its size has been read. -/
  awaiting : Option Nat := none
  /-- The bytes that have arrived and have not been given out. -/
  buffer : Bytes := []
  deriving Repr

namespace Splitter

/-- Add a chunk of the stream. -/
def feed (s : Splitter) (chunk : Bytes) : Splitter := { s with buffer := s.buffer ++ chunk }

/-- Cut off a frame of `n` bytes, or wait for it. -/
def cut (s : Splitter) (n : Nat) : Option Bytes × Splitter :=
  match splitBytes? n s.buffer with
  | some (frame, rest) => (some frame, { s with awaiting := none, buffer := rest })
  | none => (none, { s with awaiting := some n })

/-- The next frame, if it is there, and the splitter after it. -/
def next (s : Splitter) : Except Fault (Option Bytes × Splitter) :=
  match s.awaiting with
  | some n => .ok (s.cut n)
  | none =>
    match splitBytes? Frame.sizeWidth s.buffer with
    | none => .ok (none, s)
    | some (field, rest) =>
      let size := LittleEndian.decode field
      if size > s.style.limit s.max then .error .frameTooBig
      else if size < s.style.excess then .error .frameTooSmall
      else
        let kept := match s.style with
          | .body => rest
          | .whole => s.buffer
        .ok ({ s with buffer := kept }.cut (size - s.style.excess))

/-- All frames that are there, up to `count` of them, the failure that stopped
it, if one did, and the splitter after them. -/
def frames : (count : Nat) → Splitter → List Bytes × Option Fault × Splitter
  | 0, s => ([], none, s)
  | count + 1, s =>
    match s.next with
    | .error e => ([], some e, s)
    | .ok (none, s') => ([], none, s')
    | .ok (some frame, s') =>
      let (more, failure, last) := frames count s'
      (frame :: more, failure, last)

/-- All frames that are there. A frame takes at least one byte off the buffer,
except that a whole frame may announce a size of zero: such frames never end,
and as many of them are given as there are bytes. -/
def drain (s : Splitter) : List Bytes × Option Fault × Splitter := frames (s.buffer.length + 1) s

/-- What is wrong when the stream ends here. -/
def ending (s : Splitter) : Option Fault := if s.buffer.isEmpty then none else some .leftoverBytes

end Splitter

end NineP
