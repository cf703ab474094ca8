import NineP.Proofs.Frame.Canonical
import NineP.Proofs.Session.Asked
import NineP.Proofs.World.Prompt

/-!
# Operations with a prompt server

A server that answers at once decides each operation by the body of its reply:

* `Session.Operation.judge`: what an operation makes of a reply;
* `Session.checkErrorReport_of_decode`: an error report is the error of its
  number;
* `Session.Operation.heard`: an operation that fits the message size is sent, the
  server gives one of the replies that it may give, and the result is the
  operation's judgement of that reply.
-/

namespace NineP

namespace Session

/-- The message size has been agreed on, and the server has nothing left to say. -/
structure Settled (msize : UInt32) (s : Session) (p : Peer) : Prop where
  agreed : s.msize = msize
  least : minMsize ≤ msize
  stream : p.stream = []

/-- A request has been answered within the message size, and nothing is left of
the answer. -/
structure Heard (msize : UInt32) (p : Peer) (request answer : Body) (q : Peer) : Prop where
  stream : q.stream = []
  said : Peer.said q.log = (request, answer) :: Peer.said p.log
  size : 7 + answer.size ≤ msize.toNat
  texts : ∀ text ∈ answer.texts, text.utf8ByteSize ≤ Codec.maxTextSize

theorem Settled.heard {msize : UInt32} {s : Session} {p q : Peer} {request answer : Body}
    (h : Settled msize s p) (hq : Heard msize p request answer q) : Settled msize s q where
  agreed := h.agreed
  least := h.least
  stream := hq.stream

/-- The error that an error report stands for. The number zero reports success,
which is no response to anything. -/
def reported (expected : MessageType) (ecode : UInt32) : Error :=
  if ecode = 0 then .unexpectedResponse expected MessageType.rlerror.id
  else .server (.ofEcode ecode)

/-- An error report is an error unless its number is zero. -/
theorem checkErrorReport_of_decode {frame : Bytes} {tag : UInt16} {ecode : UInt32}
    (h : Frame.decode frame = .ok ⟨tag, .rlerror ecode⟩) :
    checkErrorReport frame = if ecode = 0 then .ok () else .error (.server (.ofEcode ecode)) := by
  obtain ⟨hn, -, -, -, hbody⟩ := Frame.header_of_decode h
  obtain ⟨ecode', hword, hb⟩ := Reader.map_eq_ok.1 hbody
  obtain ⟨number, hdrop, hlen, hvalue⟩ := Reader.word_eq_ok.1 hword
  obtain rfl := Body.rlerror.inj hb
  rw [List.append_nil] at hdrop
  have htotal : ¬ frame.length < errorReportSize := by
    have := congrArg List.length hdrop
    rw [List.length_drop, hlen] at this
    simp only [headerSize, errorReportSize] at this ⊢
    omega
  have htake : (frame.drop 7).take 4 = number := by
    show (frame.drop headerSize).take 4 = number
    rw [hdrop, List.take_of_length_le (Nat.le_of_eq hlen)]
  have hlt : LittleEndian.decode number < 2 ^ 32 := by
    have := LittleEndian.decode_lt number
    rwa [hlen] at this
  rw [checkErrorReport, report, if_neg htotal, relying_except, htake]
  by_cases hzero : ecode = 0
  · have hz : LittleEndian.decode number = 0 := by
      have := congrArg UInt32.toNat (hvalue.symm.trans hzero)
      rwa [UInt32.toNat_ofNat_of_lt' hlt] at this
    rw [if_pos hzero, hz]
    rfl
  · rw [if_neg hzero, hvalue]
    split
    · rename_i hz
      rw [hz] at hvalue
      exact absurd hvalue hzero
    · rfl

/-- A reply of the right tag and type is taken. -/
theorem checked_of_type {tag : UInt16} {frame : Bytes} {answer : Body}
    (h : Frame.decode frame = .ok ⟨tag, answer⟩) :
    checked tag answer.type (.ok frame) = .ok frame := by
  obtain ⟨-, -, htype, htag, -⟩ := Frame.header_of_decode h
  exact checked_of_ok (checkResponse_eq_ok.2 ⟨htag, htype⟩)

/-- An error report is taken for the error that it stands for. -/
theorem checked_of_rlerror {tag : UInt16} {frame : Bytes} {ecode : UInt32}
    {expected : MessageType} (hne : expected ≠ .rlerror)
    (h : Frame.decode frame = .ok ⟨tag, .rlerror ecode⟩) :
    checked tag expected (.ok frame) = .error (reported expected ecode) := by
  obtain ⟨-, -, htype, htag, -⟩ := Frame.header_of_decode h
  have htype : frameType frame = MessageType.rlerror.id := htype
  have hother : frameType frame ≠ expected.id := fun hx =>
    hne (MessageType.id_injective (htype.symm.trans hx)).symm
  apply checked_of_error
  rw [checkResponse_eq, if_neg (fun hx => hx htag), if_neg hother, if_pos htype,
    checkErrorReport_of_decode h, reported]
  by_cases hzero : ecode = 0
  · rw [if_pos hzero, if_pos hzero, htype]
    rfl
  · rw [if_neg hzero, if_neg hzero]
    rfl

/-- What comes of a request to a prompt server, once it is sent: the frame of the
reply, unless that is an error report. -/
theorem Transacted.heard {msize : UInt32} {replies : Replies} {s : Session} {m : Message}
    {p q : Peer} {r : Except Error Bytes} {request : Bytes} {expected : MessageType}
    (h : Transacted (.prompt msize replies) s m s.msize p r q) (hs : Settled msize s p)
    (hf : requestFrame s.msize m s.msize = .ok (request, expected)) (hc : m.body.CountsHold)
    (hp : m.body.PayloadFits) :
    ∃ answer, Heard msize p m.body.known answer q ∧
      replies.allowed (Peer.said p.log) m.body.known answer ∧
      ((answer.type = expected ∧ ∃ reply, r = .ok reply ∧
          Frame.decode reply = .ok ⟨m.tag, answer⟩) ∨
        ∃ ecode, answer = .rlerror ecode ∧ r = .error (reported expected ecode)) := by
  cases h with
  | refused hf' =>
    rw [hf] at hf'
    cases hf'
  | timedOut n hf' ha hstalls => exact absurd hstalls id
  | @answered request' reply expected' response n hf' ha ho =>
    obtain ⟨rfl, rfl⟩ := Prod.mk.inj (Except.ok.inj (hf.symm.trans hf'))
    have hd := decode_of_requestFrame hf hc hp
    obtain ⟨hresponse, -, -⟩ := requestFrame_eq_ok.1 hf
    obtain ⟨answer, hreply, htype, hlen, hallowed⟩ :=
      ha _ expected hd (by rw [Body.type_known]; exact hresponse)
    obtain ⟨hn, hfield, -, -, -⟩ := Frame.header_of_decode hreply
    rw [Nat.max_eq_right (UInt32.le_iff_toNat_le.1 hs.least)] at hlen
    have hroom : reply.length ≤ s.msize.toNat := by rwa [hs.agreed]
    obtain ⟨hsize, htexts⟩ := Frame.size_of_decode hreply
    have hout : Exchange.outcome s.msize.toNat (reply ++ []) = (.ok reply, reply.length) :=
      Exchange.outcome_frame hn hfield hroom
    rw [List.append_nil] at hout
    rw [hs.stream, List.nil_append, hout] at ho
    cases ho
    refine ⟨answer, ⟨?_, ?_, ?_, htexts⟩, hallowed, ?_⟩
    · rw [Peer.stream_skip, Peer.stream_served, hs.stream, List.nil_append, List.drop_length]
    · rw [Peer.log_skip, Peer.log_served, Peer.said_cons hd hreply]
    · have hwhole : 4 + (3 + answer.size) = reply.length := hsize
      omega
    · rcases htype with rfl | htype
      · exact .inl ⟨rfl, reply, checked_of_type hreply, hreply⟩
      · cases answer with
        | rlerror ecode =>
          have hne := MessageType.ne_rlerror_of_response hresponse
          exact .inr ⟨ecode, rfl, checked_of_rlerror hne hreply⟩
        | _ => cases htype

/-! ## Operations -/

namespace Operation

/-- Whether the request of an operation can be written and fits the message
size. -/
structure Fits (op : Operation) (s : Session) : Prop where
  texts : ∀ text ∈ (op.request s).texts, text.utf8ByteSize ≤ Codec.maxTextSize
  size : 7 + (op.request s).size ≤ s.msize.toNat
  counts : (op.request s).CountsHold

/-- What an operation makes of the body of a reply. -/
def judge (op : Operation) (s : Session) (expected : MessageType) (answer : Body) :
    Except Error Body :=
  match op, answer with
  | _, .rlerror ecode => .error (reported expected ecode)
  | walk _ _ names, .rwalk qids =>
    if qids.length > names.length then .error (.decode (.surplusQids qids.length names.length))
    else if qids.length < names.length then .error (.server .notFound)
    else .ok answer
  | read _ _ count, .rread data =>
    let count := min count s.readCeiling
    if data.length > count.toNat then .error (.decode (.surplusBytes data.length count.toNat))
    else .ok answer
  | readlink _, .rreadlink target =>
    if target.utf8ByteSize > maxTarget then
      .error (.bufferTooSmall target.utf8ByteSize maxTarget)
    else .ok answer
  | _, _ => .ok answer

variable {op : Operation} {s : Session}

/-- A request that asks for no fid always fits. -/
theorem fits_of_short (h : (op.request s).newFid? = none) (hm : minMsize ≤ s.msize) :
    op.Fits s := by
  obtain ⟨htexts, hsize, hcounts, -⟩ := op.short_request s h
  have hleast : 256 ≤ s.msize.toNat := UInt32.le_iff_toNat_le.1 hm
  refine ⟨?_, by omega, hcounts⟩
  rw [htexts]
  intro text ht
  cases ht

theorem fits_walk_nil {fid newfid : UInt32} (hm : minMsize ≤ s.msize) :
    (walk fid newfid []).Fits s := by
  have hleast : 256 ≤ s.msize.toNat := UInt32.le_iff_toNat_le.1 hm
  refine ⟨?_, ?_, Nat.zero_le _⟩
  · intro text ht
    cases ht
  · show 7 + 10 ≤ s.msize.toNat
    omega

theorem fits_walk_one {fid newfid : UInt32} {name : String}
    (ht : name.utf8ByteSize ≤ Codec.maxTextSize) (hn : name.utf8ByteSize ≤ s.msize.toNat - 19)
    (hm : minMsize ≤ s.msize) : (walk fid newfid [name]).Fits s := by
  have hleast : 256 ≤ s.msize.toNat := UInt32.le_iff_toNat_le.1 hm
  refine ⟨?_, ?_, Nat.le_of_ble_eq_true rfl⟩
  · intro text htext
    obtain rfl := List.mem_singleton.1 htext
    exact ht
  · have hsize : (Body.twalk fid newfid [name]).size = 12 + name.utf8ByteSize := by
      simp only [Body.size, Text.wireSize, List.map_cons, List.map_nil, List.sum_cons,
        List.sum_nil]
      omega
    show 7 + (Body.twalk fid newfid [name]).size ≤ s.msize.toNat
    omega

/-- A request that fits is sent. -/
theorem requestFrame_of_fits (h : op.Fits s) {expected : MessageType}
    (hr : (op.request s).type.response? = some expected) :
    ∃ request, requestFrame s.msize { tag := sessionTag, body := op.request s } s.msize =
      .ok (request, expected) := by
  have hsize : (Message.mk sessionTag (op.request s)).size = 3 + (op.request s).size := rfl
  have hlt : s.msize.toNat < 2 ^ 32 := s.msize.toNat_lt
  have hfits := h.size
  have hmax : (Message.mk sessionTag (op.request s)).size ≤ Frame.maxSize := by
    rw [hsize, Frame.maxSize]
    omega
  obtain ⟨frame, hf, hlen, -⟩ := Frame.encode_eq_ok hmax h.texts
  refine ⟨frame, requestFrame_eq_ok.2 ⟨hr, hf, ?_⟩⟩
  have hself : max s.msize s.msize = s.msize := by
    show (if s.msize ≤ s.msize then s.msize else s.msize) = s.msize
    rw [if_pos (UInt32.le_refl _)]
  rw [hlen, hself]
  omega

end Operation

end Session

namespace Session

variable {msize : UInt32} {replies : Replies} {s : Session} {p : Peer} {op : Operation}
  {expected : MessageType}

/-- Bytes behind a count that are a text of bounded size are read as that. -/
theorem boundedText_of_decode {capacity : Nat} {bs : Bytes} {target : String}
    (h : Codec.text.decode bs = .ok (target, [])) :
    (boundedText capacity bs).1 = if target.utf8ByteSize > capacity then
      .error (.bufferTooSmall target.utf8ByteSize capacity) else .ok target := by
  obtain ⟨n, rest, hn, htext⟩ := Reader.bind_eq_ok.1 h
  obtain ⟨front, mid, hfront, hs⟩ := Reader.bind_eq_ok.1 htext
  obtain ⟨-, hlen⟩ := Mirrors.counted_eq_ok hfront
  have hsize : target.utf8ByteSize = n.toNat := by
    cases ht : Text.ofBytes? front with
    | none =>
      rw [ht] at hs
      cases hs
    | some text =>
      rw [ht] at hs
      obtain ⟨rfl, -⟩ := Reader.pure_eq_ok.1 hs
      rw [← Text.length_toBytes, Text.toBytes_of_ofBytes? ht, hlen]
  simp only [boundedText, hn, hsize, htext]
  split <;> rfl

namespace Operation

/-- The server has given one of the replies that it may give, and the result of an
operation is its judgement of that reply. -/
structure Concluded (msize : UInt32) (replies : Replies) (op : Operation) (s : Session)
    (expected : MessageType) (p : Peer) (r : Except Error Body) (t : Session) (q : Peer) :
    Prop where
  same : t = s
  reply : ∃ answer, Heard msize p (op.request s).known answer q ∧
    replies.allowed (Peer.said p.log) (op.request s).known answer ∧
    (answer.type = expected ∨ answer.type = .rlerror) ∧ r = op.judge s expected answer

/-- An error report is judged before an operation looks at the reply. -/
theorem judge_rlerror (ecode : UInt32) :
    op.judge s expected (.rlerror ecode) = .error (reported expected ecode) := by
  cases op <;> rfl

/-- A reply of the expected type is judged as its body is read. -/
theorem judge_of_reading {answer : Body} {r : Except Error op.typed.Result}
    (h : op.typed.query.reading s answer = some r) :
    op.typed.view <$> r = op.judge s expected answer := by
  cases op with
  | walk fid newfid names =>
    cases answer with
    | rwalk qids =>
      obtain rfl := Option.some.inj h
      simp only [judge]
      split
      · rfl
      split <;> rfl
    | _ => cases h
  | read fid offset count =>
    cases answer with
    | rread data =>
      obtain rfl := Option.some.inj h
      simp only [judge]
      split <;> rfl
    | _ => cases h
  | readlink fid => cases h
  | lopen => cases answer <;> cases h; rfl
  | getattr => cases answer <;> cases h; rfl
  | statfs => cases answer <;> cases h; rfl
  | readdir => cases answer <;> cases h; rfl
  | clunk => cases answer <;> cases h; rfl

/-- The target of a link is read off the frame of the reply, within its bound. -/
theorem gives_readlink {fid : UInt32} {reply : Bytes} {tag : UInt16} {target : String}
    (hd : Frame.decode reply = .ok ⟨tag, .rreadlink target⟩) :
    (readlink fid).gives s reply = (readlink fid).judge s expected (.rreadlink target) := by
  obtain ⟨-, -, -, -, hbody⟩ := Frame.header_of_decode hd
  obtain ⟨text, htext, hb⟩ := Reader.map_eq_ok.1 hbody
  obtain rfl := Body.rreadlink.inj hb
  show Body.rreadlink <$> (boundedText maxTarget (reply.drop headerSize)).1 =
    if target.utf8ByteSize > maxTarget then _ else _
  rw [boundedText_of_decode htext]
  split <;> rfl

/-- What is given out for a reply of the expected type is the judgement of its
body. -/
theorem gives_of_decode {reply : Bytes} {tag : UInt16} {answer : Body}
    (hd : Frame.decode reply = .ok ⟨tag, answer⟩) (ht : answer.type = op.typed.query.expected) :
    op.gives s reply = op.judge s expected answer := by
  by_cases hl : op.typed.query.expected = .rreadlink
  · cases op with
    | readlink fid =>
      cases answer with
      | rreadlink target => exact gives_readlink hd
      | _ => cases ht
    | _ => cases hl
  · obtain ⟨r, hr⟩ := Query.exists_reading (s := s) hl ht
    rw [gives, Query.gives_of_decode hl hd, hr]
    exact judge_of_reading hr

/-- An operation that fits is sent, and what comes of it is its judgement of the
reply. -/
theorem heard (replies : Replies) (op : Operation) (hs : Settled msize s p) (hf : op.Fits s)
    (hr : (op.request s).type.response? = some expected) :
    Client.Always (Peer.Step (.prompt msize replies)) op.perform s p
      (Concluded msize replies op s expected p) := by
  obtain ⟨request, hsend⟩ := requestFrame_of_fits hf hr
  have hexpected : op.typed.query.expected = expected := op.expected_eq hr
  refine op.always_transacted.mono fun r t q h => ?_
  obtain ⟨rfl, r', h, hgives⟩ := h
  obtain ⟨answer, hheard, hallowed, ⟨htype, reply, rfl, hreply⟩ | ⟨ecode, rfl, rfl⟩⟩ :=
    h.heard hs hsend hf.counts (op.payloadFits_request t)
  · exact ⟨rfl, answer, hheard, hallowed, .inl htype,
      hgives.trans (gives_of_decode hreply (htype.trans hexpected.symm))⟩
  · exact ⟨rfl, .rlerror ecode, hheard, hallowed, .inr rfl,
      hgives.trans (judge_rlerror ecode).symm⟩

end Operation

end Session

end NineP
