import NineP.Text.Utf8
import NineP.Wire.Reader
import NineP.Wire.Sink

/-!
# Codecs

A codec says how the values of a type are written and read. Codecs of
composite values are put together from those of their parts: `pair` for two
parts one after the other, `imap` for a type with another view, `vector` for a
counted list.

A writer tells how many bytes it wrote. The number is added up beside the
writing, so that the two can be compared.
-/

namespace NineP

/-- How values are written and read. -/
structure Codec (α : Type) where
  /-- Write a value and tell the number of bytes. -/
  encode : α → Writer Nat
  /-- Read a value. -/
  decode : Reader α

namespace Codec

/-! ## Words -/

/-- A word of `width` bytes, the lowest first. -/
def word (width : Nat) (toNat : α → Nat) (ofNat : Nat → α) : Codec α where
  encode v := do
    Writer.write (LittleEndian.encode width (toNat v))
    pure width
  decode := do
    let bs ← Reader.take width .endOfInput
    pure (ofNat (LittleEndian.decode bs))

def u8 : Codec UInt8 := word 1 UInt8.toNat UInt8.ofNat

def u16 : Codec UInt16 := word 2 UInt16.toNat UInt16.ofNat

def u32 : Codec UInt32 := word 4 UInt32.toNat UInt32.ofNat

def u64 : Codec UInt64 := word 8 UInt64.toNat UInt64.ofNat

/-! ## Composition -/

/-- Two values, one after the other. -/
def pair (a : Codec α) (b : Codec β) : Codec (α × β) where
  encode v := do
    let m ← a.encode v.1
    let n ← b.encode v.2
    pure (m + n)
  decode := do
    let x ← a.decode
    let y ← b.decode
    pure (x, y)

/-- The values of `α` seen as those of `β`. -/
def imap (c : Codec α) (view : β → α) (build : α → β) : Codec β where
  encode v := c.encode (view v)
  decode := build <$> c.decode

/-- A list with its number of elements, a 16-bit word, in front. The number
wraps; the elements are all written. -/
def vector (c : Codec α) : Codec (List α) where
  encode xs := do
    let n ← u16.encode (UInt16.ofNat xs.length)
    Writer.total c.encode n xs
  decode := do
    let n ← u16.decode
    Reader.times c.decode n.toNat []

/-! ## Counted bytes -/

/-- Read the bytes that a count announced. -/
def counted (n : Nat) : Reader Bytes := Reader.take n (.countOverrun n)

/-- Bytes with their number, a 32-bit word, in front. -/
def payload : Codec Bytes where
  encode bs := do
    let n ← u32.encode (UInt32.ofNat bs.length)
    Writer.write bs
    pure (n + bs.length)
  decode := do
    let n ← u32.decode
    counted n.toNat

/-- The longest text that its count can announce. -/
def maxTextSize : Nat := 65535

/-- Take counted bytes for a text. -/
def decodeText (n : Nat) : Reader String := do
  let bs ← counted n
  match Text.ofBytes? bs with
  | some s => pure s
  | none => throw .invalidText

/-- A text with the number of its bytes, a 16-bit word, in front. A text that is
too long is refused before anything is written. -/
def text : Codec String where
  encode s := do
    if s.utf8ByteSize > maxTextSize then throw .textTooLong
    let n ← u16.encode (UInt16.ofNat s.utf8ByteSize)
    Writer.write (Text.toBytes s)
    pure (n + s.utf8ByteSize)
  decode := do
    let n ← u16.decode
    decodeText n.toNat

end Codec

end NineP
