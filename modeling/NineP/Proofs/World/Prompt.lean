import NineP.Proofs.World.Serving

/-!
# Servers with manners of their own

A server that answers at once, and of whose answers more is known than their
kind: which reply it may give to a request after all that has been said
(`Replies`). What has been said is read off the log (`Peer.said`).

* `Body.isShort_of_size`: a reply without texts is a frame of any tag that fits
  every message size;
* `Manners.prompt`: a server of this kind, for an agreed message size;
* `Replies.Served.runs`: a server that is a function and gives such replies only is
  one.
-/

namespace NineP

/-- The bodies of the requests and of the replies to them, the last first. -/
def Peer.said (log : List (Bytes × Bytes)) : List (Body × Body) :=
  log.filterMap fun entry => (messages? entry).map fun (m, r) => (m.body, r.body)

theorem Peer.said_cons {log : List (Bytes × Bytes)} {request reply : Bytes} {m r : Message}
    (hm : Frame.decode request = .ok m) (hr : Frame.decode reply = .ok r) :
    said ((request, reply) :: log) = (m.body, r.body) :: said log := by
  simp only [said, List.filterMap_cons, messages?_eq_some hm hr, Option.map_some]

/-- Whether a body is written, whatever its tag, as a frame that is read back and
fits every message size. -/
def Body.IsShort (b : Body) : Prop :=
  ∀ tag, ∃ frame, Frame.encode ⟨tag, b⟩ = .ok frame ∧ Frame.decode frame = .ok ⟨tag, b⟩ ∧
    frame.length ≤ minMsize.toNat

theorem Body.isShort_of_size {b : Body} (ht : ∀ s ∈ b.texts, s.utf8ByteSize ≤ Codec.maxTextSize)
    (hn : b.size ≤ 200) (hc : b.counted = b) (hs : b.surplus = 0) : b.IsShort := by
  intro tag
  have hsize : (Message.mk tag b).size = 3 + b.size := rfl
  have hmax : (Message.mk tag b).size ≤ Frame.maxSize := by
    rw [hsize, Frame.maxSize]
    omega
  obtain ⟨frame, hf, hlen, -, hd⟩ := Frame.encode_eq_ok hmax ht
  rw [if_pos hs, hc] at hd
  have hleast : minMsize.toNat = 256 := rfl
  exact ⟨frame, hf, hd, by omega⟩

theorem Body.isShort_rlerror (ecode : UInt32) : (Body.rlerror ecode).IsShort :=
  isShort_of_size (fun _ hs => by cases hs) (Nat.le_of_ble_eq_true rfl) rfl rfl

/-- Which replies a server may give to a request after what has been said. -/
structure Replies where
  allowed : (said : List (Body × Body)) → (request reply : Body) → Prop
  /-- There is always one of the request's kind, or an error report. -/
  total : ∀ said request expected, request.type.response? = some expected →
    ∃ reply, allowed said request reply ∧ (reply.type = expected ∨ reply.type = .rlerror) ∧
      reply.IsShort

/-- The replies are as they may be, or an error report. -/
def Replies.orError (allowed : (request reply : Body) → Prop) : Replies where
  allowed _ request reply := (∃ ecode, reply = .rlerror ecode) ∨ allowed request reply
  total _ _ _ _ := ⟨.rlerror 1, .inl ⟨1, rfl⟩, .inr rfl, Body.isShort_rlerror 1⟩

/-- A server that answers every request at once, with a well-formed reply of its
kind or an error report, of its tag and of a size that fits, and with none but
the replies that it may give. -/
def Manners.prompt (msize : UInt32) (replies : Replies) : Manners where
  answers log request reply := ∀ m expected, Frame.decode request = .ok m →
    m.body.type.response? = some expected →
    ∃ answer, Frame.decode reply = .ok ⟨m.tag, answer⟩ ∧
      (answer.type = expected ∨ answer.type = .rlerror) ∧
      reply.length ≤ max minMsize.toNat msize.toNat ∧
      replies.allowed (Peer.said log) m.body answer
  ends := True
  stalls := False
  answers_total log request := by
    by_cases h : ∃ m expected, Frame.decode request = .ok m ∧
        m.body.type.response? = some expected
    · obtain ⟨m, expected, hm, he⟩ := h
      obtain ⟨answer, ha, ht, hs⟩ := replies.total (Peer.said log) m.body expected he
      obtain ⟨reply, -, hd, hn⟩ := hs m.tag
      refine ⟨reply, fun m' expected' hm' he' => ?_⟩
      obtain rfl := Except.ok.inj (hm.symm.trans hm')
      obtain rfl := Option.some.inj (he.symm.trans he')
      exact ⟨answer, hd, ht, Nat.le_trans hn (Nat.le_max_left ..), ha⟩
    · exact ⟨[], fun m expected hm he => absurd ⟨m, expected, hm, he⟩ h⟩
  ends_or_stalls := .inl trivial

/-! ## Servers that are functions -/

/-- The frame that a function of what has been said and of the request gives as the
reply. -/
def Peer.replyOf (server : List (Body × Body) → Body → Body) (log : List (Bytes × Bytes))
    (request : Bytes) : Bytes :=
  match Frame.decode request with
  | .ok m => (Frame.encode ⟨m.tag, server (said log) m.body⟩).toOption.getD []
  | .error _ => []

/-- A peer that answers by a function, and of what it has hands out as much as is
asked for. -/
def Peer.answering (server : List (Body × Body) → Body → Body) : Call → StateM Peer Answer
  | .transmit request _ => modifyGet fun p =>
    (.done [], p.served request (replyOf server p.log request))
  | .receive most => modifyGet fun p =>
    (.done (p.stream.take (min most p.stream.length)), p.skip (min most p.stream.length))
  | _ => pure (.done [])

/-- A short reply that may be given to a request. -/
structure Replies.Gives (replies : Replies) (said : List (Body × Body)) (request reply : Body) :
    Prop where
  short : reply.IsShort
  type : ∀ expected, request.type.response? = some expected →
    reply.type = expected ∨ reply.type = .rlerror
  allowed : replies.allowed said request reply

theorem Replies.gives_rlerror {allowed : (request reply : Body) → Prop} (said : List (Body × Body))
    (request : Body) (ecode : UInt32) : (orError allowed).Gives said request (.rlerror ecode) where
  short := Body.isShort_rlerror ecode
  type _ _ := .inr rfl
  allowed := .inl ⟨ecode, rfl⟩

/-- A short reply of the request's kind. -/
theorem Replies.gives_of_allowed {allowed : (request reply : Body) → Prop}
    (said : List (Body × Body)) {request reply : Body} (hs : reply.IsShort)
    (ht : request.type.response? = some reply.type) (ha : allowed request reply) :
    (orError allowed).Gives said request reply where
  short := hs
  type _ he := .inl (Option.some.inj (ht.symm.trans he))
  allowed := .inr ha

/-- A function that gives such replies only. -/
def Replies.Served (replies : Replies) (server : List (Body × Body) → Body → Body) : Prop :=
  ∀ said request, replies.Gives said request (server said request)

variable {msize : UInt32} {replies : Replies} {server : List (Body × Body) → Body → Body}

theorem Replies.Served.answers (hs : replies.Served server) (log : List (Bytes × Bytes))
    (request : Bytes) :
    (Manners.prompt msize replies).answers log request (Peer.replyOf server log request) := by
  intro m expected hm he
  have hgives := hs (Peer.said log) m.body
  obtain ⟨frame, hf, hd, hn⟩ := hgives.short m.tag
  have hreply : Peer.replyOf server log request = frame := by
    rw [Peer.replyOf, hm]
    show (Frame.encode ⟨m.tag, server (Peer.said log) m.body⟩).toOption.getD [] = frame
    rw [hf]
    rfl
  rw [hreply]
  exact ⟨_, hd, hgives.type _ he, Nat.le_trans hn (Nat.le_max_left ..), hgives.allowed⟩

/-- What a function answers is what a prompt server may answer. -/
theorem Replies.Served.step (hs : replies.Served server) (p : Peer) (c : Call) :
    Peer.Step (.prompt msize replies) p c ((Peer.answering server c).run p).1
      ((Peer.answering server c).run p).2 := by
  cases c with
  | transmit request limit => exact .transmit (hs.answers p.log request)
  | receive most =>
    by_cases hmost : most = 0
    · subst hmost
      have hnone : min 0 p.stream.length = 0 := Nat.zero_min _
      show Peer.Step _ p _ (.done (p.stream.take (min 0 _))) (p.skip (min 0 _))
      rw [hnone]
      exact .nothing
    by_cases hstream : p.stream = []
    · have hnone : min most p.stream.length = 0 := by rw [hstream]; exact Nat.min_zero _
      show Peer.Step _ p _ (.done (p.stream.take (min most _))) (p.skip (min most _))
      rw [hnone]
      exact .ended trivial hstream
    · have hlen : 0 < p.stream.length := List.length_pos_iff.2 hstream
      exact .receive _ (by omega) (Nat.min_le_left ..) (Nat.min_le_right ..)
  | configure endpoints => exact .configure
  | connect => exact .connect
  | close => exact .close
  | print bytes => exact .print

/-- A dialogue with a function is a run of it with a prompt server. -/
theorem Replies.Served.runs {α : Type} (hs : replies.Served server) {d : Dialogue α} {p : Peer}
    {a : α} (ha : ((d.run (Peer.answering server)).run p).1 = a) :
    d.Runs (Peer.Step (.prompt msize replies)) p a ((d.run (Peer.answering server)).run p).2 :=
  ha ▸ Dialogue.runs_of_run hs.step d p

theorem Replies.Served.exists_runs {α : Type} (hs : replies.Served server) {d : Dialogue α}
    {p : Peer} {a : α} (ha : ((d.run (Peer.answering server)).run p).1 = a) :
    ∃ q, d.Runs (Peer.Step (.prompt msize replies)) p a q :=
  ⟨_, hs.runs ha⟩

end NineP
