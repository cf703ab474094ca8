import NineP.FaultKind

/-!
# Input and output failures

What can go wrong while bytes are sent, received, written or read. Each cause
has a kind and a text; only a failure of the operating system has a number.
-/

namespace NineP

/-- A cause of failure on the way of the bytes. -/
inductive Fault where
  /-- The bytes ended inside a number. -/
  | endOfInput
  /-- A count announces more bytes than follow. -/
  | countOverrun (count : Nat)
  /-- The bytes of a text are not UTF-8. -/
  | invalidText
  /-- A text is too long for its count. -/
  | textTooLong
  /-- No message has this type. -/
  | unknownMessage
  /-- The size field of a frame differs from the frame's length. -/
  | sizeMismatch (size length : Nat)
  /-- Bytes are left over after the body of a message. -/
  | trailingBytes
  /-- A buffer of a fixed size is full. -/
  | bufferFull
  /-- A received frame announces more bytes than are allowed. -/
  | frameTooBig
  /-- A frame to be sent is longer than allowed. -/
  | bodyTooBig
  /-- A received frame announces less than its own size field. -/
  | frameTooSmall
  /-- The stream ended inside a frame. -/
  | leftoverBytes
  /-- The stream ended before the response did. -/
  | closedMidResponse
  /-- A response announces less than a header. -/
  | responseTooShort (size : Nat)
  /-- The server's message size leaves no room for messages. -/
  | unusableMsize (msize : UInt32)
  /-- A walk yields more identities than it took names. -/
  | surplusQids (qids names : Nat)
  /-- A read yields more bytes than it asked for. -/
  | surplusBytes (bytes count : Nat)
  /-- The transport is not connected. -/
  | notConnected
  /-- The transport does not know where to connect to. -/
  | notConfigured
  /-- A failure of the operating system. -/
  | system (code : Nat)
  /-- Any other failure, as its reporter describes it. -/
  | reported (kind : FaultKind) (text : String)
  deriving DecidableEq, Repr

namespace Fault

def kind : Fault → FaultKind
  | endOfInput | countOverrun _ | closedMidResponse => .unexpectedEnd
  | invalidText | unknownMessage | sizeMismatch .. | trailingBytes | frameTooBig
  | responseTooShort _ | unusableMsize _ | surplusQids .. | surplusBytes .. => .invalidData
  | textTooLong | bodyTooBig | frameTooSmall => .invalidInput
  | bufferFull => .writeZero
  | leftoverBytes => .other
  | notConnected | notConfigured => .notConnected
  | system code => .ofErrno code
  | reported kind _ => kind

def message : Fault → String
  | endOfInput => "failed to fill whole buffer"
  | countOverrun count => s!"Count of {count} bytes overruns the message"
  | invalidText => "Invalid UTF-8 sequence"
  | textTooLong => "String longer than 65535 bytes"
  | unknownMessage => "Invalid message type"
  | sizeMismatch size length => s!"Frame size {size} does not match {length} bytes"
  | trailingBytes => "Trailing bytes after message body"
  | bufferFull => "failed to write whole buffer"
  | frameTooBig | bodyTooBig => "frame size too big"
  | frameTooSmall => "provided length would overflow after adjustment"
  | leftoverBytes => "bytes remaining on stream"
  | closedMidResponse => "connection closed mid-response"
  | responseTooShort size => s!"response size {size} is shorter than a header"
  | unusableMsize msize => s!"server msize {msize} is unusable"
  | surplusQids qids names => s!"{qids} qids for {names} names"
  | surplusBytes bytes count => s!"{bytes} bytes returned for a {count} byte read"
  | notConnected => "transport is not connected"
  | notConfigured => "transport is not configured"
  | system code => s!"{errnoText code} (os error {code})"
  | reported _ text => text

/-- The error number that describes a failure best. A failure of the operating
system has its own, if it is a known one. -/
def errno (fault : Fault) : Nat :=
  match fault with
  | system code => if isErrno code then code else 0
  | _ =>
    match fault.kind with
    | .unexpectedEnd => 104
    | .invalidData => 71
    | .timedOut => 110
    | _ => 5

end Fault

end NineP
