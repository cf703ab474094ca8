import NineP.Dialogue

/-!
# The states of a connection

A connection over a socket is configured, connected, used and closed, in this
order. Calls out of order are refused before they reach the socket. A
connection can be configured again unless it is connected; once closed it
carries nothing until it is configured and connected anew.
-/

namespace NineP

/-- Where a connection stands. -/
inductive Connection where
  | unconfigured
  | configured (endpoints : Endpoints)
  | connected
  | closed
  deriving DecidableEq, Repr

namespace Connection

/-- The answer to bytes that are sent or wanted without a connection. -/
def refused : Answer := .failed (.transport .notConnected)

/-- Pass a call on to the socket, and take note of its success. -/
def passOn [Monad m] (socket : Call → m Answer) (c : Call) (before after : Connection) :
    m (Answer × Connection) := do
  match ← socket c with
  | .done bytes => pure (.done bytes, after)
  | answer => pure (answer, before)

/-- Answer a call in a state of the connection, over a socket that takes every
call. -/
def guard [Monad m] (socket : Call → m Answer) (c : Call) (state : Connection) :
    m (Answer × Connection) :=
  match c, state with
  | .configure _, connected =>
    pure (.failed (.invalidParameter .alreadyConnected), state)
  | .configure endpoints, _ => passOn socket c state (configured endpoints)
  | .connect, configured _ => passOn socket c state connected
  | .connect, connected => pure (.done [], state)
  | .connect, _ => pure (.failed (.transport .notConfigured), state)
  | .transmit .., connected => passOn socket c state state
  | .receive _, connected => passOn socket c state state
  | .transmit .., _ => pure (refused, state)
  | .receive _, _ => pure (refused, state)
  | .close, connected => passOn socket c state closed
  | .close, _ => pure (.done [], closed)
  | .print _, _ => passOn socket c state state

/-- The world of a client whose bytes go through a connection over a socket. -/
def world [Monad m] (socket : Call → m Answer) (c : Call) : StateT Connection m Answer :=
  fun state => guard socket c state

end Connection

end NineP
