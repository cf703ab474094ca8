import NineP.Address.Dial

/-!
# Settings of a connection

What a client needs to know before it connects: the server, the local address,
the user, the export, the message size to propose and how long to wait. The
settings can be read from named variables, of which only the server's address
is required.

* `validate_default`: the settings for a server with nothing else said are
  acceptable.
-/

namespace NineP

/-- The port of the protocol. -/
def defaultPort : UInt16 := 564

/-- The message size that is proposed if no other is set. -/
def defaultMsize : UInt32 := 8192

/-- The smallest message size that leaves room for messages. -/
def minMsize : UInt32 := 256

/-- The settings of a connection. -/
structure Config where
  station : Option SocketAddress := none
  subnetMask : Option IPv4 := none
  remote : SocketAddress
  uname : String := "root"
  aname : String := ""
  msize : UInt32 := defaultMsize
  /-- The time limit of a transaction in milliseconds; without one it waits for
  ever. -/
  timeout : Option UInt64 := none
  deriving DecidableEq, Repr

namespace Config

/-- Refuse settings that no connection can be made with. -/
def validate (c : Config) : Except Error Unit :=
  if c.msize < minMsize then .error (.invalidParameter (.msizeBelow c.msize minMsize))
  else if c.uname.isEmpty then .error (.invalidParameter .emptyUserName)
  else if c.timeout = some 0 then .error (.invalidParameter .zeroTimeout)
  else .ok ()

def endpoints (c : Config) : Endpoints :=
  { station := c.station, subnetMask := c.subnetMask, remote := c.remote }

/-! ## Variables -/

def stationVariable : String := "P9_STATION_ADDR"
def maskVariable : String := "P9_SUBNET_MASK"
def remoteVariable : String := "P9_REMOTE_ADDR"
def unameVariable : String := "P9_UNAME"
def anameVariable : String := "P9_ANAME"
def msizeVariable : String := "P9_MSIZE"
def timeoutVariable : String := "P9_TIMEOUT_MS"

/-- Read a number up to `max`, white space around it aside. -/
def number (max : Nat) (name value : String) : Except Error Nat :=
  match Text.readNatural? max (Text.trim value) with
  | some n => .ok n
  | none => .error (.invalidParameter (.badNumber name value))

/-- What a variable holds. A blank one counts as missing. -/
def value? (lookup : String → Option String) (name : String) : Option String :=
  (lookup name).filter fun value => !Text.isBlankText value

/-- The server's address, which must not be missing. -/
def readRemote (names : HostNames) : Option String → Except Error SocketAddress
  | some value => parseDialBy names (Text.trim value) defaultPort
  | none => .error (.invalidParameter (.unset remoteVariable))

/-- The local address. Its port may be left to the system. -/
def readStation (value : String) : Except Error SocketAddress := do
  let (address, port) ← parseIPv4Address value 0
  pure (.v4 address port)

/-- The settings that named variables hold. A blank variable counts as missing,
except that the export may be named by any text. -/
def ofVariablesBy (names : HostNames) (lookup : String → Option String) : Except Error Config := do
  let get := value? lookup
  let remote ← readRemote names (get remoteVariable)
  let station ← (get stationVariable).mapM readStation
  let subnetMask ← (get maskVariable).mapM parseIPv4
  let uname := (get unameVariable).getD "root"
  let aname := (lookup anameVariable).getD ""
  let msize ← (get msizeVariable).mapM (number (UInt32.size - 1) msizeVariable)
  let timeout ← (get timeoutVariable).mapM (number (UInt64.size - 1) timeoutVariable)
  let config : Config :=
    { station, subnetMask, remote, uname, aname,
      msize := (msize.map UInt32.ofNat).getD defaultMsize,
      timeout := timeout.map UInt64.ofNat }
  config.validate
  pure config

/-- The settings that named variables hold on a system without names of hosts. -/
def ofVariables (lookup : String → Option String) : Except Error Config :=
  ofVariablesBy spelledHosts lookup

theorem validate_default (remote : SocketAddress) : validate { remote } = .ok () := by
  rfl

theorem validate_eq_ok_iff {c : Config} :
    c.validate = .ok () ↔ minMsize ≤ c.msize ∧ c.uname.isEmpty = false ∧ c.timeout ≠ some 0 := by
  simp only [validate]
  split
  · rename_i h
    simp only [reduceCtorEq, false_iff, not_and]
    intro hm
    exact absurd hm (UInt32.not_le.2 h)
  · rename_i h
    have hm : minMsize ≤ c.msize := UInt32.not_lt.1 h
    split
    · rename_i hu
      simp [hu]
    · rename_i hu
      split
      · rename_i ht
        simp [ht]
      · rename_i ht
        simp [hm, ht, hu]

end Config

end NineP
