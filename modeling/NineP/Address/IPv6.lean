import NineP.Address.IPv4

/-!
# Addresses of version 6

An address is eight 16-bit groups, written in hexadecimal between colons. Two
colons stand for a run of zero groups, and the last two groups may be written
as an address of version 4.

Writing takes the longest run of at least two zero groups, the first of equal
ones, as the two colons; an address that carries one of version 4 shows it.
-/

namespace NineP

/-- An address of version 6: its eight groups. -/
structure IPv6 where
  groups : Vector UInt16 8
  deriving DecidableEq, Repr

namespace IPv6

/-! ## Writing -/

/-- Groups between colons. -/
def colonText (groups : List UInt16) : String :=
  ":".intercalate (groups.map fun g => Text.hexDigits g.toNat)

/-- The position and the length of the longest run of zeros, the first of equal
ones, in groups that start at position `i`; `cur` is the length of the run that
ends before `i`. -/
def longestRun : (groups : List UInt16) → (i cur : Nat) → (best : Nat × Nat) → Nat × Nat
  | [], _, _, best => best
  | g :: gs, i, cur, best =>
    if g = 0 then
      let run := (i - cur, cur + 1)
      longestRun gs (i + 1) (cur + 1) (if run.2 > best.2 then run else best)
    else longestRun gs (i + 1) 0 best

/-- The address of version 4 that an address carries behind five zero groups and
one group of ones. -/
def mapped? (a : IPv6) : Option IPv4 :=
  match a.groups.toList with
  | [0, 0, 0, 0, 0, 0xffff, hi, lo] => some ⟨UInt32.ofNat (hi.toNat * UInt16.size + lo.toNat)⟩
  | _ => none

/-- The written form of an address. -/
def text (a : IPv6) : String :=
  match a.mapped? with
  | some v4 => "::ffff:" ++ v4.text
  | none =>
    let groups := a.groups.toList
    let (start, length) := longestRun groups 0 0 (0, 0)
    if length > 1 then
      colonText (groups.take start) ++ "::" ++ colonText (groups.drop (start + length))
    else colonText groups

/-! ## Reading -/

/-- Read a group of one to four hexadecimal digits. -/
def group? (cs : List Char) : Option UInt16 :=
  if cs.length > 4 then none else (Text.readDigits? 16 cs).map UInt16.ofNat

/-- Read groups between colons, of which the last may be an address of version
4 in place of two groups. -/
def groups? : List (List Char) → Option (List UInt16)
  | [] => some []
  | [part] =>
    match group? part with
    | some g => some [g]
    | none => do
      let v4 ← IPv4.ofChars? part
      pure [UInt16.ofNat (v4.bits.toNat / UInt16.size), UInt16.ofNat (v4.bits.toNat % UInt16.size)]
  | part :: parts => do
    let g ← group? part
    let gs ← groups? parts
    pure (g :: gs)

/-- The groups of a side of the two colons; nothing stands for no group. -/
def side? (cs : List Char) : Option (List UInt16) :=
  if cs.isEmpty then some [] else groups? (Text.splitAll (· = ':') cs)

/-- What stands before and after the first two colons in a row. -/
def splitGap? : List Char → Option (List Char × List Char)
  | ':' :: ':' :: cs => some ([], cs)
  | c :: cs => (splitGap? cs).map fun (a, b) => (c :: a, b)
  | [] => none

/-- The address of eight groups. -/
def ofGroups? (gs : List UInt16) : Option IPv6 :=
  if h : gs.length = 8 then some ⟨⟨gs.toArray, by simpa using h⟩⟩ else none

/-- Read an address. The two colons stand for at least one group, and an address
of version 4 stands at the very end only. -/
def parse? (s : String) : Option IPv6 :=
  match splitGap? s.toList with
  | none => do
    let gs ← side? s.toList
    ofGroups? gs
  | some (front, back) => do
    let head ← side? front
    let tail ← side? back
    if front.contains '.' || head.length + tail.length > 7 then none
    else ofGroups? (head ++ List.replicate (8 - head.length - tail.length) 0 ++ tail)

end IPv6

end NineP
