import NineP.Bytes
import NineP.Fault
import NineP.MessageType
import NineP.Misuse
import NineP.Reliance

/-!
# Errors

Everything that can go wrong for a client, with the text it is shown by and the
error number it stands for. A server reports its errors by number; three of
them are told apart and the rest are carried as they came.
-/

namespace NineP

/-- An error that a server reports. -/
inductive ServerError where
  | permissionDenied
  | notFound
  | io
  /-- Any other error, by its number. -/
  | device (ecode : UInt32)
  deriving DecidableEq, Repr

namespace ServerError

/-- The error of a number other than zero. -/
def ofEcode (ecode : UInt32) : ServerError :=
  if ecode = 1 then permissionDenied
  else if ecode = 2 then notFound
  else if ecode = 5 then io
  else device ecode

def errno : ServerError → Nat
  | permissionDenied => 1
  | notFound => 2
  | io => 5
  | device _ => 19

def message : ServerError → String
  | permissionDenied => "permission denied"
  | notFound => "not found"
  | io => "i/o error"
  | device ecode => s!"device error (ecode {ecode})"

end ServerError

/-- An error of a client. -/
inductive Error where
  /-- The stream failed or could not be set up. -/
  | transport (fault : Fault)
  /-- The server answered the handshake with another protocol. -/
  | unsupportedVersion (version : String)
  /-- The response is neither the expected one nor an error report. -/
  | unexpectedResponse (expected : MessageType) (got : UInt8)
  /-- The response carries the tag of another request. -/
  | tagMismatch (expected got : UInt16)
  /-- The response is malformed. -/
  | decode (fault : Fault)
  | server (error : ServerError)
  /-- The result takes `required` bytes where `capacity` are allowed. -/
  | bufferTooSmall (required capacity : Nat)
  | outOfResources
  /-- The caller's request was refused before anything was sent. -/
  | invalidParameter (misuse : Misuse)
  | timedOut
  deriving DecidableEq, Repr

namespace Error

/-- The error number that describes an error best. -/
def errno : Error → Nat
  | transport fault | decode fault => fault.errno
  | unsupportedVersion _ => 93
  | unexpectedResponse .. | tagMismatch .. => 71
  | server e => e.errno
  | bufferTooSmall .. => 34
  | outOfResources => 12
  | invalidParameter _ => 22
  | timedOut => 110

def message : Error → String
  | transport fault => s!"transport: {fault.message}"
  | unsupportedVersion version => s!"unsupported protocol version {Text.quoted version}"
  | unexpectedResponse expected got =>
    s!"expected {expected.name}, received message type {got}"
  | tagMismatch expected got =>
    s!"tag mismatch: sent {Text.hex 4 expected.toNat}, received {Text.hex 4 got.toNat}"
  | decode fault => s!"malformed response: {fault.message}"
  | server e => s!"server: {e.message}"
  | bufferTooSmall required capacity =>
    s!"buffer too small: {required} bytes required, {capacity} available"
  | outOfResources => "out of resources"
  | invalidParameter misuse => s!"invalid parameter: {misuse.message}"
  | timedOut => "transaction timed out"

/-- The failure of the bytes behind an error, if there is one. -/
def cause? : Error → Option Fault
  | transport fault | decode fault => some fault
  | _ => none

/-- Whether the server says that there is no such object. -/
def isNotFound (e : Error) : Bool := e == .server .notFound

end Error

/-- The bytes of an error report: a header and the number of the error. -/
def errorReportSize : Nat := 11

/-- Read a whole response frame as an error report. The number zero reports
success. -/
def report [Monad m] [MonadExcept Error m] [Relies m] (frame : Bytes) : m Unit :=
  if frame.length < errorReportSize then
    throw (.bufferTooSmall errorReportSize frame.length)
  else
    relying (errorReportSize ≤ frame.length) <|
      match LittleEndian.decode ((frame.drop 7).take 4) with
      | 0 => pure ()
      | ecode => throw (.server (.ofEcode (UInt32.ofNat ecode)))

/-- What an error report says. -/
def checkErrorReport (frame : Bytes) : Except Error Unit := report frame

end NineP
