import NineP.Proofs.World.Prompt

/-!
# A server and the client's own output

What a client puts out is seen beside what it says to its server. The output takes all
that is written to it:

* `Peer.Step.imp`: a server that may give fewer replies;
* `Screen.Step`: the output, where no call fails;
* `Console.Step`: a server and the output;
* `Console.Step.total`: a console has an answer to every call;
* `Replies.Served.console`: and a server that is a function gives it one.
-/

namespace NineP

/-- A server that may give fewer replies takes fewer steps. -/
theorem Peer.Step.imp {msize : UInt32} {replies replies' : Replies}
    (himp : ∀ said request reply, replies'.allowed said request reply →
      replies.allowed said request reply) (p : Peer) (c : Call) (answer : Answer) (q : Peer)
    (h : Step (.prompt msize replies') p c answer q) :
    Step (.prompt msize replies) p c answer q := by
  cases h with
  | transmit h =>
    refine .transmit fun m expected hm he => ?_
    obtain ⟨reply, hd, ht, hn, ha⟩ := h m expected hm he
    exact ⟨reply, hd, ht, hn, himp _ _ _ ha⟩
  | receive n h₁ h₂ h₃ => exact .receive n h₁ h₂ h₃
  | ended h₁ h₂ => exact .ended h₁ h₂
  | stalled h => exact .stalled h
  | nothing => exact .nothing
  | configure => exact .configure
  | connect => exact .connect
  | close => exact .close
  | print => exact .print

/-- The bytes that a call puts out. -/
def Call.output : Call → Bytes
  | .print bytes => bytes
  | _ => []

/-- The bytes that a client has put out. -/
abbrev Screen := Bytes

/-- The output takes whatever is written to it. No call fails, though what comes of it is
not known. -/
def Screen.Step (shown : Screen) (c : Call) (answer : Answer) (shown' : Screen) : Prop :=
  (∀ e, answer ≠ .failed e) ∧ shown' = shown ++ c.output

/-- A server and the output of its client. -/
abbrev Console := Peer × Screen

/-- A step of a server with the given manners, or of the output. -/
def Console.Step (M : Manners) : Console → Call → Answer → Console → Prop :=
  Dialogue.Both (Peer.Step M) Screen.Step

/-- With fewer replies there are fewer steps. -/
theorem Console.Step.imp {msize : UInt32} {replies replies' : Replies}
    (himp : ∀ said request reply, replies'.allowed said request reply →
      replies.allowed said request reply) (w : Console) (c : Call) (answer : Answer) (w' : Console)
    (h : Step (.prompt msize replies') w c answer w') :
    Step (.prompt msize replies) w c answer w' :=
  ⟨Peer.Step.imp himp _ _ _ _ h.1, h.2⟩

theorem Console.Step.total (M : Manners) (w : Console) (c : Call) :
    ∃ answer w', Step M w c answer w' := by
  obtain ⟨answer, q, h⟩ := Peer.Step.total M w.1 c
  refine ⟨answer, (q, w.2 ++ c.output), h, fun e he => ?_, rfl⟩
  subst he
  cases h

/-- A server that is a function, beside the output of its client. -/
def Console.answering (server : List (Body × Body) → Body → Body) (c : Call) :
    StateM Console Answer := fun w =>
  let (answer, p) := (Peer.answering server c).run w.1
  (answer, p, w.2 ++ c.output)

theorem Peer.answering_ne_failed (server : List (Body × Body) → Body → Body) (c : Call) (p : Peer)
    (e : Error) : ((answering server c).run p).1 ≠ .failed e := by
  cases c <;> exact nofun

/-- A dialogue with a function is a run of it at a console. -/
theorem Replies.Served.console {α : Type} {msize : UInt32} {replies : Replies}
    {server : List (Body × Body) → Body → Body} (hs : replies.Served server) {d : Dialogue α}
    {w : Console} {a : α} (ha : ((d.run (Console.answering server)).run w).1 = a) :
    d.Runs (Console.Step (.prompt msize replies)) w a
      ((d.run (Console.answering server)).run w).2 :=
  have hstep (w : Console) (c : Call) : Console.Step (.prompt msize replies) w c
      ((Console.answering server c).run w).1 ((Console.answering server c).run w).2 :=
    ⟨hs.step w.1 c, Peer.answering_ne_failed server c w.1, rfl⟩
  ha ▸ Dialogue.runs_of_run hstep d w

end NineP
