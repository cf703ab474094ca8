import NineP.Dialogue

/-!
# Scripted peers

A world whose answers are written down beforehand: each transmit is answered by
the next reply of a script, which puts bytes on the stream and may say how the
stream behaves once it is empty. The peer keeps a record of what it was asked.

* `receive_length_le`: a receive gives no more than was asked for.
-/

namespace NineP

/-- What a scripted peer does about one transmit. -/
structure Reply where
  /-- The bytes that are put on the stream. -/
  bytes : Bytes := []
  /-- The failure of the transmit itself; nothing is put on the stream then. -/
  sendFault : Option Fault := none
  /-- The failure of receives once the stream is empty. -/
  receiveFault : Option Fault := none
  /-- Whether receives stall once the stream is empty. -/
  stalls : Bool := false
  deriving DecidableEq, Repr

/-- What a scripted peer was asked. -/
inductive Event where
  | configured (endpoints : Endpoints)
  | connected
  | sent (bytes : Bytes)
  | received (asked given : Nat)
  | closed
  deriving DecidableEq, Repr

/-- The state of a scripted peer. -/
structure Scripted where
  replies : List Reply := []
  /-- The most bytes that one receive gives. -/
  fragment : Option Nat := none
  configureFault : Option Fault := none
  connectFault : Option Fault := none
  closeFault : Option Fault := none
  /-- The bytes that have not been received. -/
  stream : Bytes := []
  /-- The reply that the last transmit met. -/
  current : Reply := {}
  isClosed : Bool := false
  /-- What it was asked, the last first. -/
  record : List Event := []
  deriving Repr

namespace Scripted

/-- Done, unless there is a fault. -/
def doneUnless (fault : Option Fault) : Answer :=
  match fault with
  | some f => .failed (.transport f)
  | none => .done []

def note (e : Event) (s : Scripted) : Scripted := { s with record := e :: s.record }

/-- Take the next reply. When they have run out, nothing is put on the
stream. -/
def nextReply (s : Scripted) : Reply × Scripted :=
  match s.replies with
  | [] => ({}, s)
  | r :: rs => (r, { s with replies := rs })

def transmit (bytes : Bytes) (s : Scripted) : Answer × Scripted :=
  if s.isClosed then (.failed (.transport .notConnected), s)
  else
    let (reply, s) := (s.note (.sent bytes)).nextReply
    match reply.sendFault with
    | some fault => (.failed (.transport fault), { s with current := reply })
    | none => (.done [], { s with current := reply, stream := s.stream ++ reply.bytes })

def receive (most : Nat) (s : Scripted) : Answer × Scripted :=
  if s.isClosed then (.failed (.transport .notConnected), s)
  else if s.stream.isEmpty then
    if s.current.stalls then (.stalled, s)
    else
      match s.current.receiveFault with
      | some fault => (.failed (.transport fault), s)
      | none => (.done [], s.note (.received most 0))
  else
    let n := match s.fragment with
      | some size => min most size
      | none => most
    let given := s.stream.take n
    (.done given, { s with stream := s.stream.drop n }.note (.received most given.length))

/-- Answer a call. -/
def answer (c : Call) (s : Scripted) : Answer × Scripted :=
  match c with
  | .configure endpoints => (doneUnless s.configureFault, s.note (.configured endpoints))
  | .connect => (doneUnless s.connectFault, s.note .connected)
  | .transmit bytes _ => s.transmit bytes
  | .receive most => s.receive most
  | .close => (doneUnless s.closeFault, { s with isClosed := true }.note .closed)
  | .print _ => (.done [], s)

/-- The world of a client that talks to a scripted peer. -/
def world (c : Call) : StateM Scripted Answer := fun s => s.answer c

/-- The record so far, in order, and the peer with an empty one. -/
def takeRecord (s : Scripted) : List Event × Scripted := (s.record.reverse, { s with record := [] })

theorem receive_length_le {most : Nat} {s s' : Scripted} {bytes : Bytes}
    (h : s.receive most = (.done bytes, s')) : bytes.length ≤ most := by
  simp only [receive] at h
  split at h
  · cases h
  · split at h
    · split at h
      · cases h
      · split at h
        · cases h
        · cases h
          exact Nat.zero_le _
    · simp only [Prod.mk.injEq, Answer.done.injEq] at h
      obtain ⟨rfl, -⟩ := h
      rw [List.length_take]
      split <;> omega

end Scripted

end NineP
