import NineP.World.Connection

/-!
# Servers in memory

Sockets whose other end is in the same program: one that echoes all bytes, and
a server that answers each request with the next of its replies and records the
requests. Once its replies are used up the server ends its side of the stream
and goes on recording.
-/

namespace NineP

/-- The other end of a socket in memory. -/
structure Loopback where
  /-- Whether bytes are echoed; otherwise they are requests to be answered. -/
  echoes : Bool := false
  /-- Whether nobody listens. -/
  refuses : Bool := false
  /-- The local address to connect from. -/
  station : Option SocketAddress := none
  /-- The replies to come. A request may go without one. -/
  replies : List (Option Bytes) := []
  /-- The bytes that have not been received. -/
  stream : Bytes := []
  /-- Whether the last request goes without a reply. -/
  silent : Bool := false
  /-- The requests, the last first. -/
  requests : List Bytes := []
  /-- The pieces that the client printed, the last first. -/
  printed : List Bytes := []
  deriving Repr

namespace Loopback

/-- The number of the error of a local address of another version than the
server's. -/
def familyUnsupported : Nat := 97

/-- The number of the error of a local address that the machine does not have. -/
def addressUnavailable : Nat := 99

/-- The number of the error of a connection that nobody accepts. -/
def connectionRefused : Nat := 111

/-- The error of binding to a local address. The server is on this machine, which
has the addresses that begin with 127 and no other. -/
def bindError? : SocketAddress → Option Nat
  | .v4 address _ =>
    if address.bits = 0 || address.bits.toNat / 0x1000000 = 127 then none
    else some addressUnavailable
  | .v6 .. => some familyUnsupported

/-- Connect to the server. A new connection carries no bytes yet. -/
def connect (s : Loopback) : Answer × Loopback :=
  match s.station.bind bindError? with
  | some number => (.failed (.transport (.system number)), s)
  | none =>
    if s.refuses then (.failed (.transport (.system connectionRefused)), s)
    else (.done [], { s with stream := [] })

def transmit (bytes : Bytes) (s : Loopback) : Loopback :=
  if s.echoes then { s with stream := s.stream ++ bytes }
  else
    let s := { s with requests := bytes :: s.requests, silent := false }
    match s.replies with
    | [] => s
    | some reply :: more => { s with replies := more, stream := s.stream ++ reply }
    | none :: more => { s with replies := more, silent := true }

/-- Whether there will be no more bytes before the next request. -/
def hasEnded (s : Loopback) : Bool := s.replies.isEmpty && !s.echoes && !s.silent

def receive (most : Nat) (s : Loopback) : Answer × Loopback :=
  if s.stream.isEmpty then
    if s.hasEnded then (.done [], s) else (.stalled, s)
  else (.done (s.stream.take most), { s with stream := s.stream.drop most })

/-- Answer a call on the socket. -/
def answer (c : Call) (s : Loopback) : Answer × Loopback :=
  match c with
  | .configure endpoints => (.done [], { s with station := endpoints.station })
  | .connect => s.connect
  | .transmit bytes _ => (.done [], s.transmit bytes)
  | .receive most => s.receive most
  | .close => (.done [], s)
  | .print bytes => (.done [], { s with printed := bytes :: s.printed })

/-- The socket of a client whose server is in memory. -/
def socket (c : Call) : StateM Loopback Answer := fun s => s.answer c

/-- The world of a client whose server is in memory. -/
def world (c : Call) : StateT Connection (StateM Loopback) Answer := Connection.world socket c

/-- Run a dialogue from a state of the connection and of the server. -/
def play (d : Dialogue α) (state : Connection) (s : Loopback) : (α × Connection) × Loopback :=
  (d.run world).run state |>.run s

end Loopback

end NineP
