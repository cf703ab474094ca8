import NineP.Proofs.Session.Operation
import NineP.Proofs.World.Serving

/-!
# Requests to a server that answers at once

* `Session.requestFrame_of_small`: a short request without texts is always sent;
* `Session.Transacted.asked`: a request that is sent to a server that answers at
  once is entered into the log with its reply, and leaves nothing on the stream.
-/

namespace NineP

theorem Error.isUnsent_of_isReceived {e : Error} (h : e.isReceived = true) :
    e.isUnsent = false := by
  cases e with
  | invalidParameter => cases h
  | _ => rfl

namespace Session

/-- A request without texts that fits the smallest message size is sent. -/
theorem requestFrame_of_small {msize : UInt32} {m : Message} {expected : MessageType}
    (hr : m.body.type.response? = some expected) (ht : m.body.texts = []) (hn : 4 + m.size ≤ 256)
    (hm : minMsize ≤ msize) : ∃ request, requestFrame msize m msize = .ok (request, expected) := by
  have hsize : m.size ≤ Frame.maxSize := by
    simp only [Frame.maxSize]
    omega
  obtain ⟨frame, hf, hlen, -⟩ := Frame.encode_eq_ok hsize (by rw [ht]; intro s hs; cases hs)
  refine ⟨frame, requestFrame_eq_ok.2 ⟨hr, hf, ?_⟩⟩
  have hleast : 256 ≤ msize.toNat := UInt32.le_iff_toNat_le.1 hm
  have hmax : max msize msize = msize := by
    show (if msize ≤ msize then msize else msize) = msize
    rw [if_pos (UInt32.le_refl msize)]
  rw [hlen, hmax]
  omega

/-- A request that is sent is a frame of its message. -/
theorem decode_of_requestFrame {msize capacity : UInt32} {m : Message} {request : Bytes}
    {expected : MessageType} (h : requestFrame msize m capacity = .ok (request, expected))
    (hc : m.body.CountsHold) (hp : m.body.PayloadFits) :
    Frame.decode request = .ok { m with body := m.body.known } := by
  obtain ⟨-, hencode, -⟩ := requestFrame_eq_ok.1 h
  obtain ⟨hsize, htexts⟩ := Frame.fits_of_encode hp hencode
  obtain ⟨frame, hf, -, -, hd⟩ := Frame.encode_eq_ok hsize htexts
  obtain rfl := Except.ok.inj (hencode.symm.trans hf)
  obtain ⟨hknown, hsurplus⟩ := Body.counted_of_countsHold hc
  rwa [if_pos hsurplus, hknown] at hd

/-- An operation that asks for no fid has a short request. -/
theorem Operation.short_request (op : Operation) (s : Session)
    (h : (op.request s).newFid? = none) :
    (op.request s).texts = [] ∧ (op.request s).size ≤ 16 ∧ (op.request s).CountsHold ∧
      (op.request s).known.newFid? = none := by
  cases op with
  | walk => cases h
  | _ => exact ⟨rfl, Nat.le_of_ble_eq_true rfl, trivial, rfl⟩

/-- What comes of a request: it is not sent, or it is in the log with its reply.
If nothing was on the stream and there is room for any reply, then nothing is
left on the stream. -/
inductive Asked (s : Session) (m : Message) (capacity : UInt32) (expected : MessageType) (p : Peer)
    (r : Except Error Bytes) (q : Peer) : Prop where
  | unsent {e : Error} : requestFrame s.msize m capacity = .error e → r = .error e → q = p →
    Asked s m capacity expected p r q
  | sent {request reply : Bytes} : q.log = (request, reply) :: p.log →
    Frame.decode request = .ok { m with body := m.body.known } →
    (p.stream = [] →
      max errorReportSize (Peer.replyLimit p.log m.body).toNat ≤ capacity.toNat →
      q.stream = [] ∧ ∃ answer, Frame.decode reply = .ok answer ∧
        ((r = .ok reply ∧ answer.body.type = expected) ∨
          (answer.body.type = .rlerror ∧ ∃ e, r = .error e ∧ e.isReceived = true))) →
    Asked s m capacity expected p r q

theorem Transacted.asked {s : Session} {m : Message} {capacity : UInt32} {expected : MessageType}
    {p q : Peer} {r : Except Error Bytes} (h : Transacted .serving s m capacity p r q)
    (hr : m.body.type.response? = some expected) (hc : m.body.CountsHold)
    (hp : m.body.PayloadFits) :
    Asked s m capacity expected p r q := by
  cases h with
  | refused hf => exact .unsent hf rfl rfl
  | timedOut n hf ha hs => exact absurd hs id
  | @answered request reply expected' response n hf ha ho =>
    obtain ⟨hr', -, -⟩ := requestFrame_eq_ok.1 hf
    obtain rfl := Option.some.inj (hr'.symm.trans hr)
    have hd := decode_of_requestFrame hf hc hp
    refine .sent rfl hd fun hstream hcapacity => ?_
    obtain ⟨answer, hm, htag, htype, hlen⟩ := ha _ _ hd (by rw [Body.type_known]; exact hr)
    rw [Peer.replyLimit_known] at hlen
    obtain ⟨hn, hfield, htypes, htags, -⟩ := Frame.header_of_decode hm
    have hout : Exchange.outcome capacity.toNat (reply ++ []) = (.ok reply, reply.length) :=
      Exchange.outcome_frame hn hfield (Nat.le_trans hlen hcapacity)
    rw [List.append_nil] at hout
    rw [hstream, List.nil_append, hout] at ho
    cases ho
    refine ⟨?_, answer, hm, ?_⟩
    · rw [Peer.stream_skip, Peer.stream_served, hstream, List.nil_append, List.drop_length]
    · rcases htype with htype | htype
      · have hok : checkResponse m.tag expected' reply = .ok () :=
          checkResponse_eq_ok.2 ⟨htags.trans htag, by rw [htypes, htype]⟩
        exact .inl ⟨checked_of_ok hok, htype⟩
      · cases hc : checkResponse m.tag expected' reply with
        | ok u =>
          have htype' := MessageType.id_injective (htypes.symm.trans (checkResponse_eq_ok.1 hc).2)
          exact .inl ⟨checked_of_ok hc, htype'⟩
        | error e =>
          exact .inr ⟨htype, e, checked_of_error hc, isReceived_of_checkResponse hc⟩

end Session

/-- What comes of a request, with the body of its reply as the result. -/
theorem Client.Always.asked {s : Session} {p : Peer} {tag : UInt16} {body : Body}
    {capacity : UInt32} {expected : MessageType} (hr : body.type.response? = some expected)
    (hc : body.CountsHold) (hp : body.PayloadFits) :
    Always (Peer.Step .serving) (Session.request tag body capacity) s p fun r t q =>
      t = s ∧ ∃ r', Session.Asked s { tag, body } capacity expected p r' q ∧
        r = r' >>= Session.bodyOf :=
  request.mono fun _ _ _ ⟨ht, r', h, hb⟩ => ⟨ht, r', h.asked hr hc hp, hb⟩

end NineP
