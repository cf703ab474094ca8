import NineP.Address.Socket
import NineP.Error

/-!
# Dial strings

The user names a server as `tcp!host!port` or as `host:port`, where the port
may be missing in the second form. The host is a literal address of either
version or a name that the system looks up. Every system knows the older
spellings of addresses of version 4 as names.

* `parseDialBy_eq_ok_iff`: a dial string is read in two steps, its parts and then
  the host.
-/

namespace NineP

/-- The three parts between the two exclamation marks of a dial string. -/
def splitDial? (s : String) : Option (String × String × String) :=
  match (Text.splitAll (· = '!') s.toList).map String.ofList with
  | [proto, host, port] => some (proto, host, port)
  | _ => none

/-- Read a port as a user writes it. -/
def readPort? (s : String) : Option UInt16 := (Text.readNatural? 65535 s).map UInt16.ofNat

/-- How a system looks up the name of a host: the first address that it finds, with
the port. -/
abbrev HostNames := String → UInt16 → Option SocketAddress

/-- A system that knows no names but the older spellings. -/
def spelledHosts : HostNames := fun host port => (IPv4.ofSpelling? host).map (.v4 · port)

/-- The address of a host given by a literal or a name. The empty text is no name. -/
def hostAddress? (names : HostNames) (host : String) (port : UInt16) : Option SocketAddress :=
  match IPv4.parse? host with
  | some a => some (.v4 a port)
  | none =>
    match IPv6.parse? host with
    | some a => some (.v6 a port 0)
    | none => if host.isEmpty then none else names host port

/-- The host and the port that a dial string names. -/
def dialTarget? (s : String) (defaultPort : UInt16) : Option (String × UInt16) :=
  match splitDial? s with
  | some (proto, host, port) =>
    if proto = "tcp" then (readPort? port).map (host, ·) else none
  | none =>
    match Text.splitLast? ':' s.toList with
    | some (host, port) => (readPort? (String.ofList port)).map (String.ofList host, ·)
    | none => some (s, defaultPort)

/-- The server that a dial string names. -/
def parseDialBy (names : HostNames) (s : String) (defaultPort : UInt16) :
    Except Error SocketAddress :=
  let found := do
    let (host, port) ← dialTarget? s defaultPort
    hostAddress? names host port
  match found with
  | some address => .ok address
  | none => .error (.invalidParameter (.badAddress s))

/-- The server that a dial string names to a system without names of hosts. -/
def parseDial (s : String) (defaultPort : UInt16) : Except Error SocketAddress :=
  parseDialBy spelledHosts s defaultPort

/-- Read an address of version 4, white space around it aside. -/
def parseIPv4 (value : String) : Except Error IPv4 :=
  match IPv4.parse? (Text.trim value) with
  | some a => .ok a
  | none => .error (.invalidParameter (.badIPv4 value))

/-- Read an address of version 4 and a port that may be missing. -/
def parseIPv4Address (value : String) (defaultPort : UInt16) : Except Error (IPv4 × UInt16) := do
  let trimmed := Text.trim value
  match Text.splitFirst? ':' trimmed.toList with
  | some (host, port) =>
    match readPort? (String.ofList port) with
    | some port => do
      let address ← parseIPv4 (String.ofList host)
      pure (address, port)
    | none => throw (.invalidParameter (.badPort trimmed))
  | none => do
    let address ← parseIPv4 trimmed
    pure (address, defaultPort)

theorem parseDialBy_eq_ok_iff {names : HostNames} {s : String} {d : UInt16}
    {address : SocketAddress} :
    parseDialBy names s d = .ok address ↔
      ∃ host port, dialTarget? s d = some (host, port) ∧
        hostAddress? names host port = some address := by
  simp only [parseDialBy]
  constructor
  · intro h
    split at h
    · rename_i a found
      cases h
      obtain ⟨⟨host, port⟩, ht, ha⟩ := Option.bind_eq_some_iff.1 found
      exact ⟨host, port, ht, ha⟩
    · cases h
  · rintro ⟨host, port, ht, ha⟩
    simp [ht, ha]

end NineP
