import NineP.Wire.Message

/-!
# Frames

On a stream each message is preceded by a 32-bit size. There are two styles of
framing: in the first the size counts its own four bytes and what is sent and
received is the message behind it (`FrameStyle.body`); in the second the size
counts what is sent or received as it stands (`FrameStyle.whole`), so that a
received frame keeps its size field.

`Frame.encode` and `Frame.decode` turn one message into one frame and back.
-/

namespace NineP

/-- What a frame's size counts, and what is taken out of a frame. -/
inductive FrameStyle where
  /-- The size counts itself and the body; the body is taken out. -/
  | body
  /-- The size counts the whole frame; the whole frame is taken out. -/
  | whole
  deriving DecidableEq, Repr

namespace FrameStyle

/-- How much the size exceeds the length of what is taken out. -/
def excess : FrameStyle → Nat
  | body => 4
  | whole => 0

/-- The limit that is in force for a wanted limit: no size exceeds what its four
bytes can hold. -/
def limit (style : FrameStyle) (max : Nat) : Nat := min max (UInt32.size - 1 - style.excess)

end FrameStyle

namespace Frame

/-- The bytes of a size field. -/
def sizeWidth : Nat := 4

/-- Put the size in front of `data`. -/
def wrap (style : FrameStyle) (max : Nat) (data : Bytes) : Except Fault Bytes :=
  if data.length > style.limit max then .error .bodyTooBig
  else .ok (LittleEndian.encode sizeWidth (data.length + style.excess) ++ data)

/-- The frame of a message. -/
def encode (m : Message) : Except Fault Bytes :=
  match (Codec.message.encode m).runOn .growing with
  | (.ok _, sink) => wrap .body (UInt32.size - 1) sink.written
  | (.error e, _) => .error e

/-- The message of a frame: the size has to be the frame's length, and the
message has to end with the frame. -/
def decode (frame : Bytes) : Except Fault Message := do
  let (size, rest) ← Codec.u32.decode frame
  if size.toNat ≠ frame.length then throw (.sizeMismatch size.toNat frame.length)
  let (m, rest) ← Codec.message.decode rest
  if rest.isEmpty then pure m else throw .trailingBytes

end Frame

end NineP
