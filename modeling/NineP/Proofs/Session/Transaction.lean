import NineP.Proofs.Exchange.Reassembly
import NineP.Proofs.Frame.Header
import NineP.Proofs.Session.Runs

/-!
# Transactions with a peer

A request is refused before it is sent, or it is sent and the stream then has an
outcome, or the time limit passes:

* `Session.Transacted`: the three ways a transaction may go;
* `Client.Always.transaction`: it goes no other way;
* `Client.Always.call`: the same of a call, whose response is decoded;
* `Exchange.outcome_frame`: a frame that fits is taken off the stream whole.
-/

namespace NineP

theorem Exchange.outcome_frame {capacity : Nat} {frame rest : Bytes}
    (hn : headerSize ≤ frame.length) (hs : LittleEndian.decode (frame.take 4) = frame.length)
    (hc : frame.length ≤ capacity) :
    outcome capacity (frame ++ rest) = (.ok frame, frame.length) := by
  have h7 : 7 ≤ frame.length := hn
  have htake : (frame ++ rest).take 4 = frame.take 4 := List.take_append_of_le_length (by omega)
  have hlen : (frame ++ rest).length = frame.length + rest.length := List.length_append
  rw [outcome, htake, hs, if_neg (by omega), if_neg (by omega), if_neg (by omega),
    if_neg (by omega), List.take_left]

/-- A frame that is too long is not taken off the stream. -/
theorem Exchange.outcome_frame_of_lt {capacity : Nat} {frame rest : Bytes}
    (hn : headerSize ≤ frame.length) (hs : LittleEndian.decode (frame.take 4) = frame.length)
    (hc : capacity < frame.length) :
    outcome capacity (frame ++ rest) = (.error (.bufferTooSmall frame.length capacity), 4) := by
  have h7 : 7 ≤ frame.length := hn
  have htake : (frame ++ rest).take 4 = frame.take 4 := List.take_append_of_le_length (by omega)
  have hlen : (frame ++ rest).length = frame.length + rest.length := List.length_append
  rw [outcome, htake, hs, if_neg (by omega), if_pos hc]

/-- Whether an error says that a request could not be written or did not fit. -/
def Error.isUnsent : Error → Bool
  | .invalidParameter (.unwritable _) | .invalidParameter (.requestTooLong ..) => true
  | _ => false

namespace Session

/-- A request is sent if it has a response, can be written and is short enough. -/
theorem requestFrame_eq_ok {msize capacity : UInt32} {m : Message} {request : Bytes}
    {expected : MessageType} :
    requestFrame msize m capacity = .ok (request, expected) ↔
      m.body.type.response? = some expected ∧ Frame.encode m = .ok request ∧
        request.length ≤ (max msize capacity).toNat := by
  simp only [requestFrame]
  cases hr : m.body.type.response? with
  | none =>
    constructor
    · intro hx
      cases hx
    · intro hx
      obtain ⟨⟨⟩, -⟩ := hx
  | some type =>
    cases hf : Frame.encode m with
    | error fault =>
      constructor
      · intro hx
        cases hx
      · intro hx
        obtain ⟨-, ⟨⟩, -⟩ := hx
    | ok frame =>
      show (if frame.length > _ then _ else _ : Except Error (Bytes × MessageType)) = _ ↔ _
      by_cases hl : frame.length > (max msize capacity).toNat
      · rw [if_pos hl]
        constructor
        · intro hx
          cases hx
        · intro hx
          obtain ⟨-, h, hle⟩ := hx
          rw [Except.ok.inj h] at hl
          exact absurd hl (Nat.not_lt.2 hle)
      · rw [if_neg hl]
        constructor
        · intro hx
          cases hx
          exact ⟨rfl, rfl, Nat.not_lt.1 hl⟩
        · intro hx
          obtain ⟨h, h', -⟩ := hx
          rw [Except.ok.inj h', Option.some.inj h]
          rfl

/-- A request that has a response but is not sent cannot be written or does not
fit. -/
theorem isUnsent_of_requestFrame {msize capacity : UInt32} {m : Message} {expected : MessageType}
    (hr : m.body.type.response? = some expected) {e : Error}
    (h : requestFrame msize m capacity = .error e) : e.isUnsent = true := by
  simp only [requestFrame, hr] at h
  cases hf : Frame.encode m with
  | error fault =>
    rw [hf] at h
    cases h
    rfl
  | ok frame =>
    rw [hf] at h
    have h : (if frame.length > _ then _ else _ : Except Error (Bytes × MessageType)) = .error e :=
      h
    by_cases hl : frame.length > (max msize capacity).toNat
    · rw [if_pos hl] at h
      cases h
      rfl
    · rw [if_neg hl] at h
      cases h

theorem report_eq_lift (frame : Bytes) :
    (report frame : Client Unit) = liftM (checkErrorReport frame) := by
  rw [checkErrorReport, report, report]
  by_cases hl : frame.length < errorReportSize
  · rw [if_pos hl, if_pos hl]
    rfl
  · rw [if_neg hl, if_neg hl]
    generalize LittleEndian.decode ((frame.drop 7).take 4) = ecode
    cases ecode <;> rfl

/-- A session takes the judgement on a response as its own. -/
theorem judge_eq_lift (tag : UInt16) (expected : MessageType) (frame : Bytes) :
    (judge tag expected frame : Client Unit) = liftM (checkResponse tag expected frame) := by
  show (if frameTag frame ≠ tag then _ else _ : Client Unit) =
    liftM (if frameTag frame ≠ tag then _ else _ : Except Error Unit)
  by_cases ht : frameTag frame ≠ tag
  · rw [if_pos ht, if_pos ht]
    rfl
  rw [if_neg ht, if_neg ht]
  show (if frameType frame = expected.id then _ else _ : Client Unit) =
    liftM (if frameType frame = expected.id then _ else _ : Except Error Unit)
  by_cases he : frameType frame = expected.id
  · rw [if_pos he, if_pos he]
    rfl
  rw [if_neg he, if_neg he]
  show (if frameType frame = MessageType.rlerror.id then _ else _ : Client Unit) =
    liftM (if frameType frame = MessageType.rlerror.id then _ else _ : Except Error Unit)
  by_cases hr : frameType frame = MessageType.rlerror.id
  · rw [if_pos hr, if_pos hr, report_eq_lift]
    show _ = liftM (checkErrorReport frame >>= _)
    cases checkErrorReport frame <;> rfl
  · rw [if_neg hr, if_neg hr]
    rfl

/-- The response of a transaction once it has been checked. -/
def checked (tag : UInt16) (expected : MessageType) (response : Except Error Bytes) :
    Except Error Bytes := do
  let frame ← response
  checkResponse tag expected frame
  pure frame

theorem checked_of_ok {tag : UInt16} {expected : MessageType} {frame : Bytes} {u : Unit}
    (h : checkResponse tag expected frame = .ok u) :
    checked tag expected (.ok frame) = .ok frame := by
  show (checkResponse tag expected frame >>= fun _ => pure frame) = _
  rw [h]
  rfl

theorem checked_of_error {tag : UInt16} {expected : MessageType} {frame : Bytes} {e : Error}
    (h : checkResponse tag expected frame = .error e) :
    checked tag expected (.ok frame) = .error e := by
  show (checkResponse tag expected frame >>= fun _ => pure frame) = _
  rw [h]
  rfl

/-- How a transaction may go: its result and the peer after it. -/
inductive Transacted (M : Manners) (s : Session) (m : Message) (capacity : UInt32) (p : Peer) :
    Except Error Bytes → Peer → Prop where
  | refused {e : Error} : requestFrame s.msize m capacity = .error e →
    Transacted M s m capacity p (.error e) p
  | answered {request reply : Bytes} {expected : MessageType} {response : Except Error Bytes}
    {n : Nat} : requestFrame s.msize m capacity = .ok (request, expected) →
    M.answers p.log request reply →
    Exchange.outcome capacity.toNat (p.stream ++ reply) = (response, n) →
    Transacted M s m capacity p (checked m.tag expected response) ((p.served request reply).skip n)
  | timedOut {request reply : Bytes} {expected : MessageType} (k : Nat) :
    requestFrame s.msize m capacity = .ok (request, expected) → M.answers p.log request reply →
    M.stalls → Transacted M s m capacity p (.error .timedOut) ((p.served request reply).skip k)

/-- A request that is refused is not sent. -/
theorem Transacted.of_refused {M : Manners} {s : Session} {m : Message} {capacity : UInt32}
    {p q : Peer} {r : Except Error Bytes} {e : Error} (h : Transacted M s m capacity p r q)
    (hf : requestFrame s.msize m capacity = .error e) : r = .error e ∧ q = p := by
  cases h with
  | refused hf' => exact ⟨congrArg _ (Except.error.inj (hf'.symm.trans hf)), rfl⟩
  | answered hf' => cases hf'.symm.trans hf
  | timedOut k hf' => cases hf'.symm.trans hf

theorem checked_eq_ok {tag : UInt16} {expected : MessageType} {response : Except Error Bytes}
    {frame : Bytes} :
    checked tag expected response = .ok frame ↔
      response = .ok frame ∧ checkResponse tag expected frame = .ok () := by
  cases response with
  | error e =>
    constructor
    · intro hx
      cases hx
    · intro hx
      obtain ⟨⟨⟩, -⟩ := hx
  | ok frame' =>
    cases hc : checkResponse tag expected frame' with
    | error e =>
      rw [checked_of_error hc]
      constructor
      · intro hx
        cases hx
      · intro hx
        obtain ⟨⟨⟩, h⟩ := hx
        rw [hc] at h
        cases h
    | ok u =>
      rw [checked_of_ok hc]
      constructor
      · intro hx
        cases hx
        exact ⟨rfl, hc⟩
      · intro hx
        obtain ⟨h, -⟩ := hx
        exact h

/-- A response that is given out was the outcome of the stream, and it was
checked. -/
theorem Transacted.of_ok {M : Manners} {s : Session} {m : Message} {capacity : UInt32} {p q : Peer}
    {frame : Bytes} (h : Transacted M s m capacity p (.ok frame) q) :
    ∃ request reply expected n, requestFrame s.msize m capacity = .ok (request, expected) ∧
      M.answers p.log request reply ∧
      Exchange.outcome capacity.toNat (p.stream ++ reply) = (.ok frame, n) ∧
      q = (p.served request reply).skip n ∧ checkResponse m.tag expected frame = .ok () := by
  obtain ⟨r, hr⟩ : ∃ r, r = Except.ok frame := ⟨_, rfl⟩
  rw [← hr] at h
  cases h with
  | refused => cases hr
  | timedOut => cases hr
  | answered hf ha ho =>
    obtain ⟨rfl, hc⟩ := checked_eq_ok.1 hr
    exact ⟨_, _, _, _, hf, ha, ho, rfl, hc⟩

/-- The body of a response frame. -/
def bodyOf (frame : Bytes) : Except Error Body :=
  match Frame.decode frame with
  | .ok m => .ok m.body
  | .error fault => .error (.decode fault)

end Session

namespace Client.Always

variable {M : Manners} {s : Session} {p : Peer}

theorem transaction {tag : UInt16} {body : Body} {capacity : UInt32} :
    Always (Peer.Step M) (Session.transaction tag body capacity) s p fun r t q =>
      t = s ∧ Session.Transacted M s { tag, body } capacity p r q := by
  refine get_bind ?_
  cases hf : Session.requestFrame s.msize { tag, body } capacity with
  | error e => exact lift_bind_error rfl ⟨rfl, .refused hf⟩
  | ok found =>
    obtain ⟨request, expected⟩ := found
    refine lift_bind_ok rfl ?_
    have hx : Always (Peer.Step M)
        (Client.ofExchange (exchange request capacity.toNat s.timeout)) s p fun r t q =>
          t = s ∧ ∃ reply, M.answers p.log request reply ∧
          ((∃ n, Exchange.outcome capacity.toNat (p.stream ++ reply) = (r, n) ∧
            q = (p.served request reply).skip n) ∨
          M.stalls ∧ r = .error .timedOut ∧ ∃ k, q = (p.served request reply).skip k) :=
      ofExchange (Exchange.Always.exchange.mono fun r q h => ⟨rfl, h⟩)
    refine hx.bind (fun frame t q h => ?_) fun e t q h => ?_
    · rcases h with ⟨rfl, reply, ha, ⟨n, ho, rfl⟩ | ⟨-, ⟨⟩, -⟩⟩
      have hdone := Session.Transacted.answered hf ha ho
      rw [Session.judge_eq_lift]
      cases hc : Session.checkResponse tag expected frame with
      | error e =>
        refine lift_bind_error rfl ⟨rfl, ?_⟩
        rwa [Session.checked_of_error hc] at hdone
      | ok u =>
        refine lift_bind_ok rfl (pure ⟨rfl, ?_⟩)
        rwa [Session.checked_of_ok hc] at hdone
    · rcases h with ⟨rfl, reply, ha, ⟨n, ho, rfl⟩ | ⟨hs, he, k, rfl⟩⟩
      · exact ⟨rfl, .answered hf ha ho⟩
      · rw [Except.error.inj he]
        exact ⟨rfl, .timedOut k hf ha hs⟩

/-- The result of a request is the body of the response frame. -/
theorem request {tag : UInt16} {body : Body} {capacity : UInt32} :
    Always (Peer.Step M) (Session.request tag body capacity) s p fun r t q =>
      t = s ∧ ∃ r', Session.Transacted M s { tag, body } capacity p r' q ∧
        r = r' >>= Session.bodyOf := by
  refine transaction.bind (fun frame t q h => ?_) fun e t q h => ?_
  · obtain ⟨rfl, h⟩ := h
    show Always _ (match Frame.decode frame with
      | .ok m => Pure.pure m.body
      | .error fault => MonadExcept.throw (.decode fault)) _ _ _
    have hbody : (Except.ok frame >>= Session.bodyOf) = Session.bodyOf frame := rfl
    rw [Session.bodyOf] at hbody
    cases hd : Frame.decode frame with
    | ok m =>
      rw [hd] at hbody
      exact pure ⟨rfl, _, h, hbody.symm⟩
    | error fault =>
      rw [hd] at hbody
      exact throw ⟨rfl, _, h, hbody.symm⟩
  · obtain ⟨rfl, h⟩ := h
    exact ⟨rfl, _, h, rfl⟩

theorem call {body : Body} :
    Always (Peer.Step M) (Session.call body) s p fun r t q =>
      t = s ∧ ∃ r', Session.Transacted M s { tag := sessionTag, body } s.msize p r' q ∧
        r = r' >>= Session.bodyOf :=
  get_bind request

end Client.Always

end NineP
