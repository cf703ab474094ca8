import NineP.Proofs.Dialogue.Runs

/-!
# Servers at the other end of a stream

A peer keeps what the client has not received yet, and a log of the requests
with the replies to them. Its manners say which replies it may give, whether the
stream may end and whether time limits may pass; the pieces in which bytes
arrive are never promised (`Peer.Step`).

* `Peer.Step.total`: a peer has an answer to every call.
-/

namespace NineP

/-- How a server, and the stream to it, may behave. -/
structure Manners where
  /-- Whether, after what has been said, a request may have this reply. The last
  request stands first. -/
  answers : List (Bytes × Bytes) → Bytes → Bytes → Prop
  /-- Whether the stream may end once nothing is left on it. -/
  ends : Prop
  /-- Whether a time limit may pass, whatever is left on the stream. -/
  stalls : Prop
  answers_total : ∀ log request, ∃ reply, answers log request reply
  ends_or_stalls : ends ∨ stalls

/-- A server, seen from the stream. -/
structure Peer where
  /-- The bytes that have not been received. -/
  stream : Bytes := []
  /-- The requests with their replies, the last first. -/
  log : List (Bytes × Bytes) := []
  deriving DecidableEq, Repr

namespace Peer

/-- The peer after a request and its reply. -/
def served (p : Peer) (request reply : Bytes) : Peer :=
  { stream := p.stream ++ reply, log := (request, reply) :: p.log }

/-- The peer after `n` bytes have been received. -/
def skip (p : Peer) (n : Nat) : Peer := { p with stream := p.stream.drop n }

@[simp] theorem stream_served (p : Peer) (request reply : Bytes) :
    (p.served request reply).stream = p.stream ++ reply := rfl

@[simp] theorem log_served (p : Peer) (request reply : Bytes) :
    (p.served request reply).log = (request, reply) :: p.log := rfl

@[simp] theorem stream_skip (p : Peer) (n : Nat) : (p.skip n).stream = p.stream.drop n := rfl

@[simp] theorem log_skip (p : Peer) (n : Nat) : (p.skip n).log = p.log := rfl

@[simp] theorem skip_zero (p : Peer) : p.skip 0 = p := rfl

@[simp] theorem skip_skip (p : Peer) (m n : Nat) : (p.skip m).skip n = p.skip (m + n) := by
  rw [skip, skip, skip, List.drop_drop]

/-- A step of a peer with the given manners. -/
inductive Step (M : Manners) : Peer → Call → Answer → Peer → Prop where
  | transmit {p : Peer} {request reply : Bytes} {limit : Option UInt64} :
    M.answers p.log request reply →
    Step M p (.transmit request limit) (.done []) (p.served request reply)
  | receive {p : Peer} {most : Nat} (n : Nat) : 0 < n → n ≤ most → n ≤ p.stream.length →
    Step M p (.receive most) (.done (p.stream.take n)) (p.skip n)
  | ended {p : Peer} {most : Nat} : M.ends → p.stream = [] →
    Step M p (.receive most) (.done []) p
  | stalled {p : Peer} {most : Nat} : M.stalls → Step M p (.receive most) .stalled p
  | nothing {p : Peer} : Step M p (.receive 0) (.done []) p
  | configure {p : Peer} {endpoints : Endpoints} : Step M p (.configure endpoints) (.done []) p
  | connect {p : Peer} : Step M p .connect (.done []) p
  | close {p : Peer} : Step M p .close (.done []) p
  | print {p : Peer} {bytes : Bytes} : Step M p (.print bytes) (.done []) p

theorem Step.total (M : Manners) (p : Peer) (c : Call) : ∃ answer q, Step M p c answer q := by
  cases c with
  | configure endpoints => exact ⟨_, _, .configure⟩
  | connect => exact ⟨_, _, .connect⟩
  | transmit request limit =>
    obtain ⟨reply, h⟩ := M.answers_total p.log request
    exact ⟨_, _, .transmit h⟩
  | receive most =>
    obtain he | hs := M.ends_or_stalls
    · by_cases hp : p.stream = []
      · exact ⟨_, _, .ended he hp⟩
      by_cases hm : most = 0
      · subst hm
        exact ⟨_, _, .nothing⟩
      have := List.length_pos_iff.2 hp
      exact ⟨_, _, .receive 1 Nat.one_pos (by omega) this⟩
    · exact ⟨_, _, .stalled hs⟩
  | close => exact ⟨_, _, .close⟩
  | print bytes => exact ⟨_, _, .print⟩

/-- With every kind of peer, a dialogue comes to an end. -/
theorem runs_total {α : Type} (M : Manners) (d : Dialogue α) (p : Peer) :
    ∃ a q, d.Runs (Step M) p a q :=
  Dialogue.Runs.total (Step.total M) d p

end Peer

end NineP
