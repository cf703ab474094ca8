import NineP.Proofs.Session.Operation
import NineP.Proofs.Session.Query

/-!
# One reply decides one operation

The tag, the type and the error number of a reply are read straight off its
bytes, and only the body of the expected response is decoded. What an operation
makes of the reply to its request is spelled out in the order of its checks
(`Session.Query.verdict`):

* `Session.Query.exists_verdict`: there is a verdict on every frame, so no
  decoded body is ever of another type than the frame's header says;
* `Session.reply_decides`: an operation takes exactly its frame off the stream,
  and its result is the verdict.
-/

namespace NineP.Session

/-- The error number in a frame that is read as an error report. -/
def frameEcode (frame : Bytes) : UInt32 :=
  UInt32.ofNat (LittleEndian.decode ((frame.drop 7).take 4))

namespace Query

variable {α : Type} {s : Session} {op : Query α} {frame : Bytes}

/-- What an operation makes of a reply frame. Only a decoded body of another type
than the expected one would leave it without a verdict. -/
def verdict (s : Session) (op : Query α) (frame : Bytes) : Option (Except Error α) :=
  if frameTag frame ≠ op.tag then some (.error (.tagMismatch op.tag (frameTag frame)))
  else if frameType frame = op.expected.id then op.judge s frame
  else if frameType frame = MessageType.rlerror.id then
    if frame.length < errorReportSize then
      some (.error (.bufferTooSmall errorReportSize frame.length))
    else if frameEcode frame = 0 then
      some (.error (.unexpectedResponse op.expected MessageType.rlerror.id))
    else some (.error (.server (.ofEcode (frameEcode frame))))
  else some (.error (.unexpectedResponse op.expected (frameType frame)))

theorem exists_verdict (s : Session) (op : Query α) (frame : Bytes) :
    ∃ r, op.verdict s frame = some r := by
  rw [verdict]
  by_cases ht : frameTag frame ≠ op.tag
  · exact ⟨_, if_pos ht⟩
  rw [if_neg ht]
  by_cases he : frameType frame = op.expected.id
  · rw [if_pos he]
    exact exists_judge he
  rw [if_neg he]
  by_cases hr : frameType frame = MessageType.rlerror.id
  · rw [if_pos hr]
    by_cases hl : frame.length < errorReportSize
    · exact ⟨_, if_pos hl⟩
    rw [if_neg hl]
    by_cases hz : frameEcode frame = 0
    · exact ⟨_, if_pos hz⟩
    · exact ⟨_, if_neg hz⟩
  · exact ⟨_, if_neg hr⟩

/-- The error number is zero if its four bytes are. -/
theorem frameEcode_eq_zero (hn : errorReportSize ≤ frame.length) :
    frameEcode frame = 0 ↔ LittleEndian.decode ((frame.drop 7).take 4) = 0 := by
  have hlen : (frame.drop 7).length = frame.length - 7 := List.length_drop
  have hlt : LittleEndian.decode ((frame.drop 7).take 4) < 2 ^ 32 := by
    have := LittleEndian.decode_lt ((frame.drop 7).take 4)
    rwa [List.length_take_of_le (by simp only [errorReportSize] at hn; omega)] at this
  rw [frameEcode, ← UInt32.toNat_inj, UInt32.toNat_ofNat_of_lt' hlt]
  rfl

theorem checkErrorReport_eq (frame : Bytes) :
    checkErrorReport frame =
      if frame.length < errorReportSize then
        .error (.bufferTooSmall errorReportSize frame.length)
      else if frameEcode frame = 0 then .ok ()
      else .error (.server (.ofEcode (frameEcode frame))) := by
  rw [checkErrorReport, report]
  by_cases hl : frame.length < errorReportSize
  · rw [if_pos hl, if_pos hl]
    rfl
  rw [if_neg hl, if_neg hl, relying_except]
  have hzero := frameEcode_eq_zero (Nat.le_of_not_lt hl)
  split
  · rename_i h
    exact (if_pos (hzero.2 h)).symm
  · rename_i h
    exact (if_neg fun hz => h (hzero.1 hz)).symm

/-- The result of an operation is its verdict on the frame that it receives. -/
theorem result_of_verdict {r : Except Error α} (h : op.verdict s frame = some r) :
    op.result s (.ok frame) = r := by
  rw [verdict] at h
  show (checked op.tag op.expected (.ok frame) >>= fun frame => (op.judge s frame).getD
    (.error (.unexpectedResponse op.expected (frameType frame)))) = r
  have hc := checkResponse_eq op.tag op.expected frame
  by_cases ht : frameTag frame ≠ op.tag
  · rw [if_pos ht] at h hc
    rw [checked_of_error hc]
    exact Option.some.inj h
  rw [if_neg ht] at h hc
  by_cases he : frameType frame = op.expected.id
  · rw [if_pos he] at h hc
    rw [checked_of_ok hc]
    show (op.judge s frame).getD _ = r
    rw [h]
    rfl
  rw [if_neg he] at h hc
  by_cases hr : frameType frame = MessageType.rlerror.id
  · rw [if_pos hr, checkErrorReport_eq] at hc
    rw [if_pos hr] at h
    by_cases hl : frame.length < errorReportSize
    · rw [if_pos hl] at h hc
      rw [checked_of_error hc]
      exact Option.some.inj h
    rw [if_neg hl] at h hc
    by_cases hz : frameEcode frame = 0
    · rw [if_pos hz, hr] at hc
      rw [if_pos hz] at h
      rw [checked_of_error hc]
      exact Option.some.inj h
    · rw [if_neg hz] at h hc
      rw [checked_of_error hc]
      exact Option.some.inj h
  · rw [if_neg hr] at h hc
    rw [checked_of_error hc]
    exact Option.some.inj h

/-- A whole frame at the head of the stream is taken off it, and the verdict on it
is the result. -/
theorem always_decided {p : Peer} {request reply rest : Bytes} {r : Except Error α}
    (hsent : op.sends s = .ok request) (hstream : p.stream ++ reply = frame ++ rest)
    (hleast : headerSize ≤ frame.length) (hmost : frame.length ≤ (op.capacity s).toNat)
    (hsize : LittleEndian.decode (frame.take 4) = frame.length)
    (hr : op.verdict s frame = some r) :
    Client.Always (Peer.Step (.replying reply)) op.perform s p fun r' t q =>
      r' = r ∧ t = op.leaves s r ∧ q.stream = rest ∧ q.log = (request, reply) :: p.log := by
  have hout : Exchange.outcome (op.capacity s).toNat (frame ++ rest) = _ :=
    Exchange.outcome_frame hleast hsize hmost
  rw [← hstream] at hout
  refine Query.always (fun e he => by rw [hsent] at he; cases he) fun request' hf => ?_
  obtain rfl := Except.ok.inj (hsent.symm.trans hf)
  refine Exchange.Always.exchange.mono fun response q h => ?_
  obtain ⟨reply', rfl, ⟨n, ho, rfl⟩ | ⟨hstalls, -⟩⟩ := h
  · obtain ⟨rfl, rfl⟩ := Prod.mk.inj (hout.symm.trans ho)
    have hresult := result_of_verdict hr
    refine ⟨hresult, by rw [hresult], ?_, rfl⟩
    rw [Peer.stream_skip, Peer.stream_served, hstream, List.drop_left]
  · exact absurd hstalls id

end Query

/-- An operation that sends its request, to a server whose reply leaves a whole
frame at the head of the stream, takes exactly that frame off the stream. Its
result is the verdict on the frame, and there always is one. -/
theorem reply_decides {α : Type} (s : Session) (op : Query α) (p : Peer)
    (request reply frame rest : Bytes) (hsent : op.sends s = .ok request)
    (hstream : p.stream ++ reply = frame ++ rest) (hleast : headerSize ≤ frame.length)
    (hmost : frame.length ≤ (op.capacity s).toNat)
    (hsize : LittleEndian.decode (frame.take 4) = frame.length) :
    ∃ r, op.verdict s frame = some r ∧
      (∃ r' q, (op.perform.runIn s).Runs (Peer.Step (.replying reply)) p r' q) ∧
      ∀ r' t q, (op.perform.runIn s).Runs (Peer.Step (.replying reply)) p (r', t) q →
        r' = r ∧ t = op.leaves s r ∧ q.stream = rest ∧ q.log = (request, reply) :: p.log := by
  obtain ⟨r, hr⟩ := op.exists_verdict s frame
  exact ⟨r, hr, Peer.runs_total _ _ p, fun r' t q hrun =>
    Query.always_decided hsent hstream hleast hmost hsize hr _ _ hrun⟩

/-! ## A read that is answered by too much -/

/-- The response of two bytes. -/
def twoBytes : Bytes := [13, 0, 0, 0, 117, 1, 0, 2, 0, 0, 0, 65, 66]

/-- The surplus byte is refused, and the byte behind the response is left for
others. -/
theorem reply_decides_twoBytes :
    (∃ request, (Query.read 1 0 1).sends {} = .ok request) ∧
      (∃ r q, ((Query.read 1 0 1).perform.runIn {}).Runs
        (Peer.Step (.replying (twoBytes ++ [7]))) {} r q) ∧
      ∀ r t q, ((Query.read 1 0 1).perform.runIn {}).Runs
          (Peer.Step (.replying (twoBytes ++ [7]))) {} (r, t) q →
        r = .error (.decode (.surplusBytes 2 1)) ∧ t = {} ∧ q.stream = [7] := by
  obtain ⟨request, hsent⟩ : ∃ request, (Query.read 1 0 1).sends {} = .ok request := ⟨_, rfl⟩
  obtain ⟨r, hr, htotal, hall⟩ := reply_decides {} (.read 1 0 1) {} request (twoBytes ++ [7])
    twoBytes [7] hsent rfl (by decide) (by decide) rfl
  have hverdict : (Query.read 1 0 1).verdict {} twoBytes =
      some (.error (.decode (.surplusBytes 2 1))) := rfl
  obtain rfl := Option.some.inj (hverdict.symm.trans hr)
  refine ⟨⟨request, hsent⟩, htotal, fun r t q h => ?_⟩
  obtain ⟨rfl, rfl, hs, -⟩ := hall r t q h
  exact ⟨rfl, rfl, hs⟩

end NineP.Session
