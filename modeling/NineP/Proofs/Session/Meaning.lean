import NineP.Proofs.Session.Negotiated

/-!
# What is sent and what was meant

An operation describes one request. Either nothing is sent, since the request
cannot be written or is too long, or one frame is sent, which a receiver reads as
that request:

* `Session.Query.Sendable`: whether a request can be written and is not too long;
* `Session.Query.sends_of_sendable`, `Session.Query.sends_of_not_sendable`: just
  such requests are sent, the others are refused;
* `Session.transmitted_meaning`: what stands in the record after an operation.

The one request that a receiver does not read is a walk through more names than
their 16-bit count can tell. Its frame is sent all the same.
-/

namespace NineP.Session

namespace Query

variable {α : Type} {s : Session} {op : Query α}

/-- Whether the arguments of an operation are accepted, the texts of its request
fit their counts, and the frame of the request is no longer than the message size
or, for the handshake, the proposal. -/
structure Sendable (s : Session) (op : Query α) : Prop where
  vetted : op.vetted = .ok ()
  texts : ∀ text ∈ (op.body s).texts, text.utf8ByteSize ≤ Codec.maxTextSize
  size : 4 + (Message.mk op.tag (op.body s)).size ≤ (max s.msize (op.capacity s)).toNat

/-- The frame of a request is read as the request, unless there are more names in
it than are counted. -/
theorem sends_of_sendable (h : op.Sendable s) :
    ∃ request, op.sends s = .ok request ∧
      Frame.decode request = if (op.body s).surplus = 0 then .ok ⟨op.tag, (op.body s).counted⟩
        else .error .trailingBytes := by
  have hmax : (Message.mk op.tag (op.body s)).size ≤ Frame.maxSize := by
    have hlt := (max s.msize (op.capacity s)).toNat_lt
    have hsize := h.size
    simp only [Frame.maxSize]
    omega
  obtain ⟨request, hencode, hlen, -, hd⟩ := Frame.encode_eq_ok hmax h.texts
  refine ⟨request, sends_eq_ok.2 ⟨h.vetted, requestFrame_eq_ok.2 ⟨op.response_body s, hencode, ?_⟩⟩,
    hd⟩
  rw [hlen]
  exact h.size

theorem sendable_of_sends {request : Bytes} (h : op.sends s = .ok request) : op.Sendable s := by
  obtain ⟨hvetted, hf⟩ := sends_eq_ok.1 h
  obtain ⟨-, hencode, hle⟩ := requestFrame_eq_ok.1 hf
  obtain ⟨hmax, htexts⟩ := Frame.fits_of_encode (op.payloadFits_body s) hencode
  obtain ⟨frame, hf, hlen, -⟩ := Frame.encode_eq_ok hmax htexts
  obtain rfl := Except.ok.inj (hencode.symm.trans hf)
  exact ⟨hvetted, htexts, hlen ▸ hle⟩

/-- A proposal that is large enough is always sent. -/
theorem sendable_negotiate {proposal : UInt32} (h : minMsize ≤ proposal) :
    (negotiate proposal).Sendable s := by
  refine ⟨if_neg (UInt32.not_lt.2 h), fun text ht => ?_, ?_⟩
  · rw [List.mem_singleton.1 ht]
    decide
  · have hleast : 256 ≤ proposal.toNat := UInt32.le_iff_toNat_le.1 h
    have hmax : proposal.toNat ≤ (max s.msize proposal).toNat := by
      show _ ≤ (if s.msize ≤ proposal then proposal else s.msize).toNat
      split
      · exact Nat.le_refl _
      · rename_i hle
        exact UInt32.le_iff_toNat_le.1 (UInt32.le_of_lt (UInt32.not_le.1 hle))
    show 4 + (1 + 2 + (4 + Text.wireSize protocolVersion)) ≤ (max s.msize proposal).toNat
    have hsize : Text.wireSize protocolVersion = 10 := rfl
    omega

theorem misuse_of_vetted {e : Error} (h : op.vetted = .error e) :
    ∃ misuse, e = .invalidParameter misuse := by
  cases op with
  | negotiate proposal =>
    rw [vetted] at h
    split at h
    · exact ⟨_, (Except.error.inj h).symm⟩
    · cases h
  | _ => cases h

/-- What is not sent is refused as a mistake of the caller. -/
theorem sends_of_not_sendable (h : ¬ op.Sendable s) :
    ∃ misuse, op.sends s = .error (.invalidParameter misuse) := by
  cases hs : op.sends s with
  | ok request => exact absurd (sendable_of_sends hs) h
  | error e =>
    cases ha : op.vetted with
    | ok u =>
      have hunsent := isUnsent_of_sends ha hs
      cases e with
      | invalidParameter misuse => exact ⟨misuse, rfl⟩
      | _ => cases hunsent
    | error e' =>
      rw [sends, ha] at hs
      obtain ⟨misuse, rfl⟩ := misuse_of_vetted ha
      exact ⟨misuse, congrArg _ (Except.error.inj hs).symm⟩

/-- A list of names is the only thing in a request that its count may not
tell. -/
theorem countsHold_body : (op.body s).CountsHold ∨
    ∃ fid newfid names, op.body s = .twalk fid newfid names ∧ 65535 < names.length := by
  cases op with
  | walk fid newfid names =>
    by_cases hn : names.length ≤ 65535
    · exact .inl hn
    · exact .inr ⟨fid, newfid, names, rfl, Nat.not_le.1 hn⟩
  | _ => exact .inl trivial

/-- How a receiver reads the request of an operation. -/
theorem decode_of_sends {request : Bytes} (h : op.sends s = .ok request) :
    ((op.body s).CountsHold → Frame.decode request = .ok ⟨op.tag, (op.body s).known⟩) ∧
      (¬ (op.body s).CountsHold → Frame.decode request = .error .trailingBytes) := by
  obtain ⟨request', h', hd⟩ := sends_of_sendable (sendable_of_sends h)
  obtain rfl := Except.ok.inj (h.symm.trans h')
  refine ⟨fun hc => ?_, fun hc => ?_⟩
  · obtain ⟨hknown, hsurplus⟩ := Body.counted_of_countsHold hc
    rw [hd, if_pos hsurplus, hknown]
  · rw [hd, if_neg (Nat.pos_iff_ne_zero.1 (Body.surplus_pos hc))]

/-- An operation that is recorded has sent its request, and any other is refused. -/
theorem Recorded.request {log log' : Wire} {r : Except Error α} (h : op.Recorded s log r log') :
    (op.Sendable s ∧ ∃ request heard, op.sends s = .ok request ∧ log' = (request, heard) :: log) ∨
      (¬ op.Sendable s ∧ log' = log ∧ ∃ misuse, r = .error (.invalidParameter misuse)) := by
  cases h with
  | unsent he =>
    have hs : ¬ op.Sendable s := fun hs => by
      obtain ⟨request, hf, -⟩ := sends_of_sendable hs
      cases he.symm.trans hf
    obtain ⟨misuse, he'⟩ := sends_of_not_sendable hs
    exact .inr ⟨hs, rfl, misuse, congrArg _ (Except.error.inj (he.symm.trans he'))⟩
  | answered hf => exact .inl ⟨sendable_of_sends hf, _, _, hf, rfl⟩
  | lost hf => exact .inl ⟨sendable_of_sends hf, _, _, hf, rfl⟩

end Query

/-- After an operation, in whatever session, there is one more request in the
record if the request can be written and is not too long; if not, there is nothing
more in it and the operation is refused. The request, in which only groups of
attributes with a meaning are asked for, is read as the one that the operation
describes, with the tag of the handshake or the session's, unless it is a walk
through more names than their count can tell: that is read as a message with bytes
behind its end. -/
theorem transmitted_meaning {α : Type} {s t : Session} (op : Query α) {log log' : Wire}
    {r : Except Error α} (hk : (op.body s).known = op.body s)
    (hrun : (op.perform.runIn s).Runs Wire.Step log (r, t) log') :
    op.tag = (if (op.body s).type = .tversion then noTag else sessionTag) ∧
    (¬ op.Sendable s → log' = log ∧ ∃ misuse, r = .error (.invalidParameter misuse)) ∧
    (op.Sendable s → ∃ request heard, log' = (request, heard) :: log ∧
      ((Frame.decode request = .ok ⟨op.tag, op.body s⟩ ∧ (op.body s).CountsHold) ∨
        (Frame.decode request = .error .trailingBytes ∧ ∃ fid newfid names,
          op.body s = .twalk fid newfid names ∧ 65535 < names.length))) := by
  obtain ⟨-, hr⟩ := Query.recorded_of_runs hrun
  have htag : op.tag = if (op.body s).type = .tversion then noTag else sessionTag := by
    cases op <;> rfl
  obtain ⟨hs, request, heard, hf, hlog⟩ | ⟨hs, hlog, hmisuse⟩ := hr.request
  · refine ⟨htag, fun hs' => absurd hs hs', fun _ => ⟨request, heard, hlog, ?_⟩⟩
    obtain ⟨hread, hrefused⟩ := Query.decode_of_sends hf
    obtain hc | hw := op.countsHold_body (s := s)
    · exact .inl ⟨(hread hc).trans (by rw [hk]), hc⟩
    · refine .inr ⟨hrefused fun hc => ?_, hw⟩
      obtain ⟨fid, newfid, names, hb, hlong⟩ := hw
      rw [hb] at hc
      exact absurd hlong (Nat.not_lt.2 hc)
  · exact ⟨htag, fun _ => ⟨hlog, hmisuse⟩, fun hs' => absurd hs' hs⟩

/-! ## Walks -/

/-- A session in which requests may be long. -/
def roomy : Session := { msize := 200000, version := protocolVersion }

/-- The answer of a server that knows of no such object. -/
def noSuchObject : Bytes := [11, 0, 0, 0, 7, 1, 0, 2, 0, 0, 0]

/-- A walk that is sent may be answered by an error report. -/
theorem runs_walk {fid newfid : UInt32} {names : List String} {request : Bytes}
    (h : (Query.walk fid newfid names).sends roomy = .ok request) :
    ((Query.walk fid newfid names).perform.runIn roomy).Runs Wire.Step []
      (.error (.server .notFound), roomy) [(request, noSuchObject)] := by
  rw [Query.exchanges, h]
  exact .ask (.done _ _ []) (.ask (.done _ _ (noSuchObject.take 4))
    (.ask (.done _ _ (noSuchObject.drop 4)) (.done _ _)))

/-- A walk through short names is sent if they fit the message size. -/
theorem sendable_walk {fid newfid : UInt32} {names : List String}
    (ht : ∀ name ∈ names, name.utf8ByteSize ≤ Codec.maxTextSize)
    (hn : (names.map Text.wireSize).sum ≤ 199983) :
    (Query.walk fid newfid names).Sendable roomy := by
  refine ⟨rfl, ht, ?_⟩
  have hmax : (max roomy.msize roomy.msize).toNat = 200000 := by decide
  show 4 + (1 + 2 + (4 + 4 + 2 + (names.map Text.wireSize).sum)) ≤
    (max roomy.msize roomy.msize).toNat
  omega

/-- A walk through two names is read as that. -/
theorem transmitted_meaning_two_names :
    let op := Query.walk 1 2 ["a", "b"]
    op.Sendable roomy ∧ ∃ r t log', (op.perform.runIn roomy).Runs Wire.Step [] (r, t) log' ∧
      ∃ request heard, log' = [(request, heard)] ∧
        Frame.decode request = .ok ⟨sessionTag, .twalk 1 2 ["a", "b"]⟩ := by
  intro op
  have hs : op.Sendable roomy := sendable_walk (by decide) (by decide)
  obtain ⟨request, hf, -⟩ := Query.sends_of_sendable hs
  have hrun := runs_walk hf
  obtain ⟨htag, -, hsent⟩ := transmitted_meaning op rfl hrun
  obtain ⟨request', heard, hlog, ⟨hd, -⟩ | ⟨-, hlong⟩⟩ := hsent hs
  · exact ⟨hs, _, _, _, hrun, request', heard, hlog, hd⟩
  · obtain ⟨fid, newfid, names, hb, hn⟩ := hlong
    obtain ⟨-, -, rfl⟩ := Body.twalk.inj hb
    exact absurd hn (by decide)

/-- One name more than can be counted. -/
def uncounted : List String := List.replicate 65536 "a"

/-- A walk through one name more than can be counted is sent, and no receiver
reads it. -/
theorem uncounted_walk_sent :
    ∃ request heard r t, ((Query.walk 1 2 uncounted).perform.runIn roomy).Runs Wire.Step []
      (r, t) [(request, heard)] ∧ (∀ misuse, r ≠ .error (.invalidParameter misuse)) ∧
      ∀ m, Frame.decode request ≠ .ok m := by
  have hs : (Query.walk 1 2 uncounted).Sendable roomy := by
    refine sendable_walk (fun name hname => ?_) ?_
    · obtain rfl := List.eq_of_mem_replicate hname
      decide
    · rw [uncounted, List.map_replicate, List.sum_replicate_nat, show Text.wireSize "a" = 3 from rfl]
      omega
  obtain ⟨request, hf, -⟩ := Query.sends_of_sendable hs
  have hlong : ¬ ((Query.walk 1 2 uncounted).body roomy).CountsHold := by
    show ¬ uncounted.length ≤ 65535
    rw [uncounted, List.length_replicate]
    omega
  have hd := (Query.decode_of_sends hf).2 hlong
  refine ⟨request, noSuchObject, _, _, runs_walk hf, ?_, ?_⟩
  · intro misuse hm
    cases hm
  · intro m hm
    cases hd.symm.trans hm

end NineP.Session
