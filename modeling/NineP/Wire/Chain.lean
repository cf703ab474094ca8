import NineP.Wire.Message

/-!
# Chains of values

Values of different types are written one after the other into one sink, and
read one after the other from one byte string. The types are those with a
codec, named by the codes of `WireType`.

A chain of writes ends at its first failure. A tally goes on after a failure,
and counts the bytes of the values that were written whole.
-/

namespace NineP

/-- The types of values on the wire. -/
inductive WireType where
  | u8
  | u16
  | u32
  | u64
  | text
  | qid
  | time
  | stat
  | attr
  | fsStat
  | dirEntry
  | listing
  | payload
  | message
  | vector (element : WireType)
  deriving DecidableEq, Repr

namespace WireType

/-- The values of a type. -/
@[reducible] def Value : WireType → Type
  | u8 => UInt8
  | u16 => UInt16
  | u32 => UInt32
  | u64 => UInt64
  | text => String
  | qid => Qid
  | time => Time
  | stat => Stat
  | attr => Attr
  | fsStat => FsStat
  | dirEntry => DirEntry
  | listing => List DirEntry
  | payload => Bytes
  | message => Message
  | vector element => List element.Value

/-- How the values of a type are written and read. -/
def codec : (t : WireType) → Codec t.Value
  | u8 => Codec.u8
  | u16 => Codec.u16
  | u32 => Codec.u32
  | u64 => Codec.u64
  | text => Codec.text
  | qid => Codec.qid
  | time => Codec.time
  | stat => Codec.stat
  | attr => Codec.attr
  | fsStat => Codec.fsStat
  | dirEntry => Codec.dirEntry
  | listing => Codec.listing
  | payload => Codec.payload
  | message => Codec.message
  | vector element => element.codec.vector

end WireType

/-- A value together with its type. -/
abbrev WireValue := (t : WireType) × t.Value

namespace WireValue

/-- Write a value and tell the number of bytes. -/
def encode (v : WireValue) : Writer Nat := v.1.codec.encode v.2

/-- Read a value of a type. -/
def decode (t : WireType) : Reader WireValue := (fun v => ⟨t, v⟩) <$> t.codec.decode

/-- Write values one after the other and tell the number of bytes of all of
them. -/
def encodeAll (vs : List WireValue) : Writer Nat := Writer.total encode 0 vs

/-- Write values one after the other, going on after a failure. For each value
there is what its writing came to and the number of bytes of all values written
whole so far. -/
def tally (vs : List WireValue) (s : Sink) : List (Except Fault Nat × Nat) × Sink :=
  go 0 s vs
where
  go (total : Nat) (s : Sink) : List WireValue → List (Except Fault Nat × Nat) × Sink
    | [] => ([], s)
    | v :: vs =>
      match (encode v).runOn s with
      | (.ok n, s') =>
        let (rest, last) := go (total + n) s' vs
        ((.ok n, total + n) :: rest, last)
      | (.error e, s') =>
        let (rest, last) := go total s' vs
        ((.error e, total) :: rest, last)

/-- Read values of the given types until one fails: the values read, and the
bytes left or the failure. -/
def decodeAll : List WireType → Bytes → List WireValue × Except Fault Bytes
  | [], bs => ([], .ok bs)
  | t :: ts, bs =>
    match decode t bs with
    | .ok (v, rest) =>
      let (vs, last) := decodeAll ts rest
      (v :: vs, last)
    | .error e => ([], .error e)

end WireValue

end NineP
