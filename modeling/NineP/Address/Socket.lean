import NineP.Address.IPv6

/-!
# Socket addresses

An address and a port, and what a client knows about both ends of its
connection. Without a mask or a local address there is no telling whether the
server is on the same subnet.
-/

namespace NineP

/-- An address and a port. -/
inductive SocketAddress where
  | v4 (address : IPv4) (port : UInt16)
  /-- The scope tells which link an address belongs to that is valid on one link
  only; zero leaves it open. -/
  | v6 (address : IPv6) (port : UInt16) (scope : UInt32)
  deriving DecidableEq, Repr

namespace SocketAddress

/-- The written form; an address of version 6 stands in brackets, with its scope
behind a percent sign unless that is zero. -/
def text : SocketAddress → String
  | v4 address port => address.text ++ ":" ++ toString port.toNat
  | v6 address port scope =>
    let scope := if scope = 0 then "" else "%" ++ toString scope.toNat
    "[" ++ address.text ++ scope ++ "]:" ++ toString port.toNat

/-- Read a port of digits alone. -/
def port? (cs : List Char) : Option UInt16 :=
  ((Text.readDigits? 10 cs).filter (· ≤ 65535)).map UInt16.ofNat

/-- Read a scope of digits alone. -/
def scope? (cs : List Char) : Option UInt32 :=
  ((Text.readDigits? 10 cs).filter (· < UInt32.size)).map UInt32.ofNat

/-- Read an address of version 6 and its scope, which may be missing. -/
def scoped? (cs : List Char) : Option (IPv6 × UInt32) :=
  match Text.splitFirst? '%' cs with
  | some (address, scope) => do
    let address ← IPv6.parse? (String.ofList address)
    let scope ← scope? scope
    pure (address, scope)
  | none => do
    let address ← IPv6.parse? (String.ofList cs)
    pure (address, 0)

/-- Read a written socket address. -/
def parse? (s : String) : Option SocketAddress := do
  let (host, port) ← Text.splitLast? ':' s.toList
  let port ← port? port
  match host with
  | '[' :: inner =>
    match inner.getLast? with
    | some ']' => do
      let (address, scope) ← scoped? inner.dropLast
      pure (v6 address port scope)
    | _ => none
  | _ => do
    let address ← IPv4.ofChars? host
    pure (v4 address port)

end SocketAddress

/-- Where a connection starts and where it leads. -/
structure Endpoints where
  /-- The local address, if it is not left to the system. -/
  station : Option SocketAddress := none
  /-- The mask of the station's subnet. -/
  subnetMask : Option IPv4 := none
  remote : SocketAddress
  deriving DecidableEq, Repr

namespace Endpoints

/-- Whether the server lies on the station's subnet, if that can be told. -/
def isLocal (e : Endpoints) : Option Bool := do
  let mask ← e.subnetMask
  let station ← e.station
  match station, e.remote with
  | .v4 a _, .v4 b _ => some (a.bits &&& mask.bits == b.bits &&& mask.bits)
  | _, _ => none

end Endpoints

end NineP
