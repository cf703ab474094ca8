import NineP.Dialogue
import NineP.Frame

/-!
# Exchanges

One request and its response. The response is received in as many pieces as the
stream makes of it: first its size, which decides how much more there is to
receive, and then the rest, so that nothing behind it is taken off the stream.
-/

namespace NineP

/-- Calls on the world that may fail. -/
abbrev Exchange {m : Type → Type} [Machine m] (α : Type) := ExceptT Error m α

/-- The result of an exchange, be it a failure. -/
def Exchange.attempt {m : Type → Type} [Monad m] {_ : Machine m} (x : Exchange α) :
    Exchange (Except Error α) := ExceptT.mk (Except.ok <$> x.run)

variable {m : Type → Type} [Monad m] [Machine m] [Relies m]

namespace Exchange

/-- The bytes of an answer. An answer that never comes is a time-out. -/
def ofAnswer : Answer → Except Error Bytes
  | .done bytes => .ok bytes
  | .failed e => .error e
  | .stalled => .error .timedOut

/-- Make a call. -/
def call (c : Call) : Exchange Bytes := ExceptT.mk (ofAnswer <$> Machine.call c)

/-- Make a call whose answer holds no bytes. -/
def perform (c : Call) : Exchange Unit := do
  let _ ← call c

/-- Receive at most `most` bytes. -/
def receive (most : Nat) : Exchange Bytes := do
  let bytes ← call (.receive most)
  relying (bytes.length ≤ most) do
  pure (bytes.take most)

/-- Receive `wanted` more bytes behind those in `acc`, which stand in reverse.
Every receive yields at least one byte, so `fuel` receives are enough if `fuel`
is at least `wanted`. -/
def collectFrom : (fuel wanted : Nat) → (acc : Bytes) → Exchange Bytes
  | _, 0, acc => pure acc.reverse
  | 0, _ + 1, _ => throw (.transport .closedMidResponse)
  | fuel + 1, wanted + 1, acc => do
    let bytes ← receive (wanted + 1)
    if bytes.isEmpty then throw (.transport .closedMidResponse)
    else
      relying (bytes.length ≤ wanted + 1) do
      collectFrom fuel (wanted + 1 - bytes.length) (bytes.reverseAux acc)

/-- Receive exactly `wanted` bytes. -/
def collect (wanted : Nat) : Exchange Bytes := collectFrom wanted wanted []

end Exchange

/-- Send a request and receive its response, a frame of at most `capacity`
bytes. The frame keeps its size field. -/
def exchange (request : Bytes) (capacity : Nat) (limit : Option UInt64) : Exchange Bytes := do
  Exchange.perform (.transmit request limit)
  let field ← Exchange.collect Frame.sizeWidth
  relying (Frame.sizeWidth ≤ field.length) do
  let size := LittleEndian.decode field
  if size > capacity then throw (.bufferTooSmall size capacity)
  if size < headerSize then throw (.decode (.responseTooShort size))
  relying (Frame.sizeWidth ≤ size) do
  let rest ← Exchange.collect (size - Frame.sizeWidth)
  pure (field ++ rest)

end NineP
