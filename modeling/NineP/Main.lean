import NineP.Program
import NineP.World.Connection
import Std.Async.TCP
import Std.Async.Timer

/-!
# The command line program

The program over the network of the machine. `Network.answer` answers the calls
of a dialogue with a stream to the server and the standard output; what is
called, and in which order, is settled by `Program.run`.
-/

open Std.Async Std.Net

namespace NineP

/-- A connection to a server over the network. -/
structure Network where
  endpoints : Option Endpoints := none
  client : Option TCP.Socket.Client := none
  /-- When the exchange that goes on runs out of time, in milliseconds. -/
  deadline : Option Nat := none

namespace Network

/-- The address in the form that sockets take. -/
def socketAddress : NineP.SocketAddress → Std.Net.SocketAddress
  | .v4 address port =>
    let octet := fun i => UInt8.ofNat (address.octets.getD i 0)
    .v4 { addr := ⟨#v[octet 0, octet 1, octet 2, octet 3]⟩, port }
  | .v6 address port _ => .v6 { addr := ⟨address.groups⟩, port }

/-- The system's number of an error. Some errors hold its negative in 32 bits. -/
def systemNumber (e : IO.Error) : Nat :=
  let number : UInt32 := match e with
    | .alreadyExists _ n _ | .otherError n _ | .resourceBusy n _ | .resourceVanished n _
    | .unsupportedOperation n _ | .hardwareFault n _ | .unsatisfiedConstraints n _
    | .illegalOperation n _ | .protocolError n _ | .timeExpired n _ | .interrupted _ n _
    | .noFileOrDirectory _ n _ | .invalidArgument _ n _ | .permissionDenied _ n _
    | .resourceExhausted _ n _ | .inappropriateType _ n _ | .noSuchThing _ n _ => n
    | .unexpectedEof | .userError _ => 5
  (if number < 0x80000000 then number else 0 - number).toNat

/-- The milliseconds that are left to the exchange that goes on, if it has a
limit. -/
def remaining (n : Network) : IO (Option Std.Time.Millisecond.Offset) := do
  let some deadline := n.deadline | return none
  let now ← IO.monoMsNow
  return some (.ofNat (deadline - now))

/-- Open a stream to the server. -/
def connect (endpoints : Endpoints) : IO TCP.Socket.Client := do
  let client ← TCP.Socket.Client.mk
  if let some station := endpoints.station then client.bind (socketAddress station)
  (client.connect (socketAddress endpoints.remote)).block
  client.noDelay
  return client

/-- Send all of the bytes in the time that is left. -/
def transmit (client : TCP.Socket.Client) (bytes : Bytes)
    (left : Option Std.Time.Millisecond.Offset) : IO Answer := do
  let send : Async Bool := do
    client.send (ByteArray.mk bytes.toArray)
    return true
  let sent ← match left with
    | none => send.block
    | some left => (Async.race send (do sleep left; return false)).block
  return if sent then .done [] else .stalled

/-- Receive at most `most` bytes in the time that is left. -/
def receive (client : TCP.Socket.Client) (most : Nat) (left : Option Std.Time.Millisecond.Offset) :
    IO Answer := do
  let answer : Option ByteArray → Answer
    | some bytes => .done bytes.toList
    | none => .done []
  match left with
  | none => return answer (← (client.recv? (UInt64.ofNat most)).block)
  | some left =>
    let race : Async Answer := do
      Selectable.one #[
        .case (client.recvSelector (UInt64.ofNat most)) fun bytes => return answer bytes,
        .case (← Selector.sleep left) fun _ => return Answer.stalled]
    race.block

/-- Answer a call, or fail with an error of the system. -/
def attempt (c : Call) (n : Network) : IO (Answer × Network) := do
  match c, n.client with
  | .configure endpoints, _ => return (.done [], { n with endpoints := some endpoints })
  | .connect, _ =>
    let some endpoints := n.endpoints | return (Connection.refused, n)
    return (.done [], { n with client := some (← connect endpoints) })
  | .transmit bytes limit, some client =>
    let now ← IO.monoMsNow
    let n := { n with deadline := limit.map fun limit => now + limit.toNat }
    return (← transmit client bytes (← n.remaining), n)
  | .receive most, some client => return (← receive client most (← n.remaining), n)
  | .close, some client =>
    client.shutdown.block
    return (.done [], n)
  | .print bytes, _ =>
    let output ← IO.getStdout
    output.write (ByteArray.mk bytes.toArray)
    output.flush
    return (.done [], n)
  | _, none => return (Connection.refused, n)

/-- Answer a call. -/
def answer (c : Call) : StateT Network IO Answer := fun n => do
  try attempt c n
  catch e => return (.failed (.transport (.system (systemNumber e))), n)

end Network

end NineP

open NineP in
/-- Run the program on the arguments of its command line. -/
def main (args : List String) : IO UInt32 := do
  let names := Setting.all.map Setting.environmentName
  let environment ← names.mapM fun name => return (name, ← IO.getEnv name)
  match Invocation.parse args fun name => (environment.lookup name).join with
  | none =>
    IO.eprintln "usage: p9cli [options] ls|cat|stat|statfs|readlink [path]"
    return UInt32.ofNat Program.usageStatus
  | some invocation =>
    let world := Connection.world Network.answer
    let ((result, _), _) ← (((Program.run invocation).run.run world).run .unconfigured).run {}
    IO.eprint (Program.report result)
    return UInt32.ofNat (Program.status result)
