import NineP.Proofs.Frame.Header
import NineP.Proofs.World.Peer

/-!
# Servers that answer at once

What a server has granted can be read off its log: which fids are live, which
message size was agreed on and how many requests have named a new fid. A server
that answers at once gives every request a well-formed reply of its kind, or an
error report, that fits the message size (`Manners.serving`).
-/

namespace NineP

namespace Body

/-- The fid that a request asks for. -/
def newFid? : Body → Option UInt32
  | .tattach fid .. => some fid
  | .twalk _ newfid _ => some newfid
  | _ => none

/-- Whether a reply establishes the fid that was asked for. A walk has to go
through all of its names. -/
def grants : (request reply : Body) → Bool
  | .tattach .., .rattach _ => true
  | .twalk _ _ names, .rwalk qids => qids.length == names.length
  | _, _ => false

/-- The fids that are live after a request and its reply. A clunk ends a fid
whatever the reply. -/
def settle (live : List UInt32) (request reply : Body) : List UInt32 :=
  match request with
  | .tclunk fid => live.filter (· ≠ fid)
  | _ =>
    match request.newFid? with
    | some fid => if request.grants reply then fid :: live else live
    | none => live

theorem settle_of_newFid {request : Body} {fid : UInt32} (h : request.newFid? = some fid)
    (live : List UInt32) (reply : Body) :
    settle live request reply = if request.grants reply then fid :: live else live := by
  cases request with
  | tattach => cases h; rfl
  | twalk => cases h; rfl
  | _ => cases h

theorem settle_of_ne {request : Body} (h : request.newFid? = none) (hc : request.type ≠ .tclunk)
    (live : List UInt32) (reply : Body) : settle live request reply = live := by
  cases request with
  | tclunk => exact absurd rfl hc
  | tattach => cases h
  | twalk => cases h
  | _ => rfl

/-- An error report establishes nothing. -/
theorem grants_rlerror (request : Body) {reply : Body} (h : reply.type = .rlerror) :
    request.grants reply = false := by
  cases reply with
  | rlerror => cases request <;> rfl
  | _ => cases h

end Body

namespace Peer

/-- The messages of a request and its reply, if both are frames of one. -/
def messages? (entry : Bytes × Bytes) : Option (Message × Message) :=
  match Frame.decode entry.1, Frame.decode entry.2 with
  | .ok m, .ok r => some (m, r)
  | _, _ => none

/-- The fids that are live at the server. -/
def live : (log : List (Bytes × Bytes)) → List UInt32
  | [] => []
  | entry :: log =>
    match messages? entry with
    | some (m, r) => Body.settle (live log) m.body r.body
    | none => live log

/-- The message size of the last handshake, or the one before any. -/
def agreed : (log : List (Bytes × Bytes)) → UInt32
  | [] => defaultMsize
  | entry :: log =>
    match messages? entry with
    | some (⟨_, .tversion proposal _⟩, ⟨_, .rversion msize _⟩) => min msize proposal
    | _ => agreed log

/-- The number of requests that named a new fid. -/
def namings (log : List (Bytes × Bytes)) : Nat :=
  log.countP fun entry =>
    match Frame.decode entry.1 with
    | .ok m => m.body.newFid?.isSome
    | .error _ => false

/-- The size that the reply to a request may have. -/
def replyLimit (log : List (Bytes × Bytes)) : (request : Body) → UInt32
  | .tversion proposal _ => proposal
  | _ => agreed log

end Peer

/-- A server that answers every request at once, with a well-formed reply of its
kind or an error report, of its tag and of a size that fits. No size is too
small for an error report. -/
def Manners.serving : Manners where
  answers log request reply := ∀ m expected, Frame.decode request = .ok m →
    m.body.type.response? = some expected →
    ∃ r, Frame.decode reply = .ok r ∧ r.tag = m.tag ∧
      (r.body.type = expected ∨ r.body.type = .rlerror) ∧
      reply.length ≤ max errorReportSize (Peer.replyLimit log m.body).toNat
  ends := True
  stalls := False
  answers_total log request := by
    cases hm : Frame.decode request with
    | error e => exact ⟨[], fun m expected h => by cases h⟩
    | ok m =>
      have hsize : (Message.mk m.tag (.rlerror 1)).size = 7 := rfl
      obtain ⟨frame, -, hlen, -, hd⟩ := Frame.encode_eq_ok (m := ⟨m.tag, .rlerror 1⟩)
        (by rw [hsize]; decide) (by simp [Body.texts])
      refine ⟨frame, fun m' expected h _ => ⟨⟨m.tag, .rlerror 1⟩, hd, ?_, .inr rfl, ?_⟩⟩
      · rw [Except.ok.inj h]
      · rw [hlen, hsize]
        exact Nat.le_max_left ..
  ends_or_stalls := .inl trivial

namespace Peer

variable {log : List (Bytes × Bytes)} {request reply : Bytes} {m r : Message}

theorem messages?_eq_some (hm : Frame.decode request = .ok m) (hr : Frame.decode reply = .ok r) :
    messages? (request, reply) = some (m, r) := by
  rw [messages?, hm, hr]

theorem live_cons (hm : Frame.decode request = .ok m) (hr : Frame.decode reply = .ok r) :
    live ((request, reply) :: log) = Body.settle (live log) m.body r.body := by
  rw [live, messages?_eq_some hm hr]

theorem namings_cons (hm : Frame.decode request = .ok m) :
    namings ((request, reply) :: log) = namings log + if m.body.newFid?.isSome then 1 else 0 := by
  rw [namings, List.countP_cons, hm]
  rfl

theorem agreed_cons (hm : Frame.decode request = .ok m) (hr : Frame.decode reply = .ok r)
    (ht : m.body.type ≠ .tversion) : agreed ((request, reply) :: log) = agreed log := by
  obtain ⟨tag, body⟩ := m
  rw [agreed, messages?_eq_some hm hr]
  cases body with
  | tversion => exact absurd rfl ht
  | _ => rfl

theorem replyLimit_of_ne {body : Body} (h : body.type ≠ .tversion) :
    replyLimit log body = agreed log := by
  cases body with
  | tversion => exact absurd rfl h
  | _ => rfl

theorem replyLimit_known (body : Body) : replyLimit log body.known = replyLimit log body := by
  cases body <;> rfl

/-- A log that grows names no fewer fids. -/
theorem namings_le_cons (log : List (Bytes × Bytes)) (entry : Bytes × Bytes) :
    namings log ≤ namings (entry :: log) := by
  rw [namings, namings, List.countP_cons]
  exact Nat.le_add_right ..

end Peer

end NineP
