import NineP.Text.Blank
import NineP.Text.Numeral
import NineP.Text.Split

/-!
# Addresses of version 4

An address is a 32-bit number, written as four decimal numbers between dots.
`IPv4.parse?` reads exactly that form. `IPv4.ofSpelling?` also reads the older
spellings with one to four parts in decimal, octal or hexadecimal, of which the
last part fills all bytes that are left.
-/

namespace NineP

/-- An address of version 4. -/
structure IPv4 where
  bits : UInt32
  deriving DecidableEq, Repr

namespace IPv4

/-- The address of four numbers, the most significant first. -/
def ofOctets (a b c d : Nat) : IPv4 := ⟨UInt32.ofNat (((a * 256 + b) * 256 + c) * 256 + d)⟩

/-- The four numbers of an address. -/
def octets (a : IPv4) : List Nat :=
  let n := a.bits.toNat
  [n / 0x1000000, n / UInt16.size % 256, n / UInt8.size % 256, n % 256]

/-- The dotted form of an address. -/
def text (a : IPv4) : String := ".".intercalate (a.octets.map toString)

/-- A part of a dotted address: up to three digits, a zero in front only if it
stands alone, and at most 255. -/
def octet? (cs : List Char) : Option Nat :=
  if cs.length > 3 then none
  else if cs.length > 1 && cs.head? == some '0' then none
  else (Text.readDigits? 10 cs).filter (· ≤ 255)

/-- Read a dotted address. -/
def ofChars? (cs : List Char) : Option IPv4 :=
  match (Text.splitAll (· = '.') cs).map octet? with
  | [some a, some b, some c, some d] => some (ofOctets a b c d)
  | _ => none

/-- Read a dotted address. -/
def parse? (s : String) : Option IPv4 := ofChars? s.toList

/-! ## Older spellings -/

/-- A part of an older spelling: hexadecimal after `0x`, octal after `0`,
decimal otherwise. -/
def spelledPart? : List Char → Option Nat
  | '0' :: 'x' :: cs | '0' :: 'X' :: cs => Text.readDigits? 16 cs
  | '0' :: cs => if cs.isEmpty then some 0 else Text.readDigits? 8 cs
  | cs => Text.readDigits? 10 cs

/-- The number that one to four parts spell: all but the last are bytes, and the
last fills the bytes that are left. -/
def spelledBits? : List Nat → Option Nat
  | [d] => if d < UInt32.size then some d else none
  | [a, d] => if a < UInt8.size ∧ d < 0x1000000 then some (a * 0x1000000 + d) else none
  | [a, b, d] =>
    if a < UInt8.size ∧ b < UInt8.size ∧ d < UInt16.size then
      some (a * 0x1000000 + b * UInt16.size + d)
    else none
  | [a, b, c, d] =>
    if a < UInt8.size ∧ b < UInt8.size ∧ c < UInt8.size ∧ d < UInt8.size then
      some (a * 0x1000000 + b * UInt16.size + c * UInt8.size + d)
    else none
  | _ => none

/-- Read an address in any of its older spellings. -/
def ofSpelling? (s : String) : Option IPv4 := do
  let parts ← (Text.splitAll (· = '.') s.toList).mapM spelledPart?
  let bits ← spelledBits? parts
  pure ⟨UInt32.ofNat bits⟩

end IPv4

end NineP
