import NineP.Proofs.Session.Operation

/-!
# Responses and their requests

Every request of a session carries the same tag, and a response that comes after
its time limit stays on the stream. Which response an operation takes is
therefore decided by how many operations were given up before it:

* `Manners.tardy`: a server that answers every request with one frame of the
  right type and tag, at whatever time;
* `Session.Backlog`: the stream holds the responses to the last requests;
* `Session.Backlog.step`: each operation takes one response off, and one that is
  given up leaves one more;
* `Session.response_after_timeouts`: an operation gives out the response to the
  request that lies as many requests back as operations were given up; without
  time-outs, that is its own.
-/

namespace NineP

/-- The body of a response of a type, to show that there is one. -/
def Body.plain : MessageType → Body
  | .rstatfs => .rstatfs default
  | .rlopen => .rlopen default 0
  | .rreadlink => .rreadlink ""
  | .rgetattr => .rgetattr default
  | .rreaddir => .rreaddir []
  | .rversion => .rversion 0 ""
  | .rattach => .rattach default
  | .rwalk => .rwalk []
  | .rread => .rread []
  | .rclunk => .rclunk
  | _ => .rlerror 0

theorem Body.type_plain {type expected : MessageType} (h : type.response? = some expected) :
    (plain expected).type = expected := by
  cases type <;> cases h <;> rfl

theorem Frame.exists_of_type (tag : UInt16) {type expected : MessageType}
    (h : type.response? = some expected) :
    ∃ frame m, decode frame = .ok m ∧ m.tag = tag ∧ m.body.type = expected := by
  have hsize : (Message.mk tag (Body.plain expected)).size ≤ maxSize := by
    show 1 + 2 + (Body.plain expected).size ≤ maxSize
    cases expected <;> decide
  have htexts : ∀ s ∈ (Body.plain expected).texts, s.utf8ByteSize ≤ Codec.maxTextSize := by
    cases expected <;> decide
  have hcount : (Body.plain expected).surplus = 0 := by
    cases expected <;> rfl
  obtain ⟨frame, -, -, -, hd⟩ := encode_eq_ok hsize htexts
  refine ⟨frame, _, hd.trans (if_pos hcount), rfl, ?_⟩
  exact (Body.type_counted _).trans (Body.type_plain h)

/-- A server that answers every request, in order, with exactly one frame of the
right type and tag. Any time limit may pass before a response comes. -/
def Manners.tardy : Manners where
  answers _ request reply := ∀ type expected,
    MessageType.ofId? (Session.frameType request) = some type → type.response? = some expected →
    ∃ m, Frame.decode reply = .ok m ∧ m.tag = Session.frameTag request ∧ m.body.type = expected
  ends := False
  stalls := True
  answers_total _ request := by
    by_cases h : ∃ type expected, MessageType.ofId? (Session.frameType request) = some type ∧
        type.response? = some expected
    · obtain ⟨type, expected, ht, he⟩ := h
      obtain ⟨frame, m, hd, htag, htype⟩ := Frame.exists_of_type (Session.frameTag request) he
      refine ⟨frame, fun type' expected' ht' he' => ⟨m, hd, htag, ?_⟩⟩
      obtain rfl := Option.some.inj (ht.symm.trans ht')
      rw [htype, Option.some.inj (he.symm.trans he')]
    · exact ⟨[], fun type expected ht he => absurd ⟨type, expected, ht, he⟩ h⟩
  ends_or_stalls := .inr trivial

namespace Session

/-- The peer has still to be read the replies to the last `k` requests: whole
frames of at most `most` bytes, the oldest first. -/
structure Backlog (most k : Nat) (p : Peer) : Prop where
  le : k ≤ p.log.length
  stream : p.stream = ((p.log.take k).reverse.map Prod.snd).flatten
  frames : ∀ entry ∈ p.log.take k, (∃ m, Frame.decode entry.2 = .ok m) ∧ entry.2.length ≤ most

namespace Backlog

variable {most k : Nat} {p q : Peer} {request reply : Bytes}

theorem start {p : Peer} (h : p.stream = []) : Backlog most 0 p where
  le := Nat.zero_le _
  stream := h
  frames _ he := by cases he

/-- A reply that is left on the stream is one more. -/
theorem push (h : Backlog most k p) (hd : ∃ m, Frame.decode reply = .ok m)
    (hl : reply.length ≤ most) : Backlog most (k + 1) (p.served request reply) where
  le := Nat.succ_le_succ h.le
  stream := by
    simp only [Peer.stream_served, Peer.log_served, List.take_succ_cons, List.reverse_cons,
      List.map_append, List.flatten_append, h.stream]
    simp
  frames entry he := by
    rw [Peer.log_served, List.take_succ_cons, List.mem_cons] at he
    rcases he with rfl | he
    · exact ⟨hd, hl⟩
    · exact h.frames entry he

/-- The oldest reply stands first. -/
theorem front (h : Backlog most (k + 1) p) :
    ∃ entry, p.log[k]? = some entry ∧ (∃ m, Frame.decode entry.2 = .ok m) ∧
      entry.2.length ≤ most ∧
      p.stream = entry.2 ++ ((p.log.take k).reverse.map Prod.snd).flatten := by
  have hk : k < p.log.length := h.le
  have htake : p.log.take (k + 1) = p.log.take k ++ [p.log[k]] :=
    List.take_succ_eq_append_getElem hk
  have hmem : p.log[k] ∈ p.log.take (k + 1) := by
    rw [htake]
    exact List.mem_append_right _ (List.mem_singleton.2 rfl)
  obtain ⟨hd, hl⟩ := h.frames _ hmem
  refine ⟨p.log[k], List.getElem?_eq_getElem hk, hd, hl, ?_⟩
  rw [h.stream, htake, List.reverse_append, List.reverse_singleton, List.singleton_append,
    List.map_cons, List.flatten_cons]

/-- Once it has been received, one reply less is left. -/
theorem pop (h : Backlog most (k + 1) p) {entry : Bytes × Bytes} (he : p.log[k]? = some entry) :
    Backlog most k (p.skip entry.2.length) where
  le := Nat.le_of_succ_le h.le
  stream := by
    obtain ⟨entry', he', -, -, hs⟩ := h.front
    obtain rfl := Option.some.inj (he.symm.trans he')
    rw [Peer.stream_skip, hs, List.drop_left, Peer.log_skip]
  frames entry' hm := by
    rw [Peer.log_skip] at hm
    exact h.frames entry' (List.take_subset_take_left _ (Nat.le_succ k) hm)

theorem outcome (h : Backlog most (k + 1) p) {entry : Bytes × Bytes} (he : p.log[k]? = some entry) :
    Exchange.outcome most p.stream = (.ok entry.2, entry.2.length) := by
  obtain ⟨entry', he', ⟨m, hm⟩, hl, hs⟩ := h.front
  obtain rfl := Option.some.inj (he.symm.trans he')
  obtain ⟨hn, hsize, -⟩ := Frame.header_of_decode hm
  rw [hs, Exchange.outcome_frame hn hsize hl]

/-- What an exchange receives is the oldest reply, the one to its own request if
no other is left. -/
theorem received (h : Backlog most k p) (hd : ∃ m, Frame.decode reply = .ok m) {frame : Bytes}
    {n : Nat} (ho : Exchange.outcome most (p.stream ++ reply) = (.ok frame, n)) :
    ∃ given, (p.served request reply).log[k]? = some given ∧ given.2 = frame ∧
      ∃ m, Frame.decode frame = .ok m := by
  cases k with
  | zero =>
    have hs : p.stream = [] := h.stream
    obtain ⟨m, hm⟩ := hd
    obtain ⟨hn, hsize, -⟩ := Frame.header_of_decode hm
    rw [hs, List.nil_append, ← List.append_nil reply] at ho
    by_cases hl : reply.length ≤ most
    · rw [Exchange.outcome_frame hn hsize hl] at ho
      cases ho
      exact ⟨_, rfl, rfl, m, hm⟩
    · rw [Exchange.outcome_frame_of_lt hn hsize (Nat.not_le.1 hl)] at ho
      cases ho
  | succ k =>
    obtain ⟨entry, he, ⟨m, hm⟩, hl, hs⟩ := h.front
    obtain ⟨hn, hsize, -⟩ := Frame.header_of_decode hm
    rw [hs, List.append_assoc, Exchange.outcome_frame hn hsize hl] at ho
    cases ho
    exact ⟨entry, he, rfl, m, hm⟩

end Backlog

/-- A request that is sent gets one frame of its own. -/
theorem tardy_reply {s : Session} {op : Operation} {log : List (Bytes × Bytes)}
    {request reply : Bytes} {expected : MessageType}
    (hf : requestFrame s.msize { tag := sessionTag, body := op.request s } s.msize =
      .ok (request, expected)) (ha : Manners.tardy.answers log request reply) :
    ∃ m, Frame.decode reply = .ok m := by
  obtain ⟨he, hencode, -⟩ := requestFrame_eq_ok.1 hf
  obtain ⟨htype, -⟩ := Frame.header_of_encode (op.payloadFits_request s) hencode
  obtain ⟨m, hm, -⟩ := ha _ _ (htype ▸ MessageType.ofId?_id _) he
  exact ⟨m, hm⟩

/-- An operation in a run, with its result and the peer before and after it. -/
structure Turn where
  operation : Operation
  result : Except Error Body
  before : Peer
  after : Peer

namespace Turn

/-- Whether the operation was given up. -/
def isLate (t : Turn) : Bool :=
  match t.result with
  | .error .timedOut => true
  | _ => false

/-- If the operation sent a request, then the reply to it fits the message size,
and unless it came in time, none of it was received. -/
def Clean (most : Nat) (t : Turn) : Prop :=
  ∀ request reply, t.after.log = (request, reply) :: t.before.log →
    reply.length ≤ most ∧
      (t.result = .error .timedOut → t.after.stream = t.before.stream ++ reply)

theorem isLate_eq_true {t : Turn} : t.isLate = true ↔ t.result = .error .timedOut := by
  obtain ⟨op, r, p, q⟩ := t
  constructor
  · intro h
    rw [isLate] at h
    split at h
    · assumption
    · cases h
  · intro hx
    cases hx
    rfl

end Turn

/-- The operations of a run, the last first, that begins in the session `s`, with
the session and the peer after them. -/
inductive History (M : Manners) (s : Session) : List Turn → Session → Peer → Prop where
  | start {p : Peer} : p.stream = [] → History M s [] s p
  | turn {turns : List Turn} {t u : Session} {p q : Peer} {op : Operation}
    {r : Except Error Body} : History M s turns t p →
    (op.perform.runIn t).Runs (Peer.Step M) p (r, u) q →
    History M s (⟨op, r, p, q⟩ :: turns) u q

namespace Backlog

variable {s : Session} {k : Nat} {op : Operation} {p q : Peer} {r : Except Error Body}

/-- An operation takes the oldest reply off the stream, or leaves its own. -/
theorem step {r' : Except Error Bytes} (h : Backlog s.msize.toNat k p)
    (hr : Operation.Answered .tardy s op p r q r')
    (hc : (Turn.mk op r p q).Clean s.msize.toNat) :
    Backlog s.msize.toNat (k + if (Turn.mk op r p q).isLate then 1 else 0) q := by
  have hlate := hr.timedOut_iff
  have hprompt (hr' : r' ≠ .error .timedOut) : (Turn.mk op r p q).isLate = false := by
    rw [← Bool.not_eq_true, Turn.isLate_eq_true]
    exact fun h => hr' (hlate.1 h)
  cases hr.transacted with
  | refused hf =>
    obtain ⟨expected, hresponse⟩ := op.exists_response s
    rw [hprompt fun he => ?_]
    · exact h
    · have hunsent := isUnsent_of_requestFrame hresponse hf
      rw [Except.error.inj he] at hunsent
      cases hunsent
  | @answered request reply _ _ n hf ha ho =>
    obtain ⟨hl, -⟩ := hc _ _ rfl
    have hpush := (h.push (tardy_reply hf ha) hl : Backlog _ _ (p.served request reply))
    obtain ⟨entry, he, -⟩ := hpush.front
    have hn : n = entry.2.length := congrArg Prod.snd (ho.symm.trans (hpush.outcome he))
    rw [hprompt (checked_ne_timedOut ho), hn]
    exact hpush.pop he
  | @timedOut request reply _ n hf ha =>
    obtain ⟨hl, hs⟩ := hc _ _ rfl
    have hr : r = .error .timedOut := hlate.2 rfl
    have hkept : (p.served request reply).skip n = p.served request reply := by
      rw [Peer.skip]
      exact congrArg (fun stream => { p.served request reply with stream }) (hs hr)
    rw [Turn.isLate_eq_true.2 hr, if_pos rfl, hkept]
    exact h.push (tardy_reply hf ha) hl

end Backlog

theorem History.session_eq {M : Manners} {s t : Session} {turns : List Turn} {p : Peer}
    (h : History M s turns t p) : t = s := by
  induction h with
  | start => rfl
  | turn h hrun ih => exact (Operation.always_perform _ _ _ hrun).1.trans ih

theorem History.backlog {s t : Session} {turns : List Turn} {p : Peer}
    (h : History .tardy s turns t p) (hc : ∀ t ∈ turns, t.Clean s.msize.toNat) :
    Backlog s.msize.toNat (turns.countP Turn.isLate) p := by
  induction h with
  | start hp => exact .start hp
  | turn h hrun ih =>
    obtain rfl := h.session_eq
    obtain ⟨-, r', hr⟩ := Operation.always_perform _ _ _ hrun
    rw [List.countP_cons]
    exact (ih fun t ht => hc t (List.mem_cons_of_mem _ ht)).step hr (hc _ List.mem_cons_self)

/-- An operation that has a result gives out the reply to the request that lies
as many requests back as operations were given up before it. So it gives out the
reply to its own request if none was, and a late reply if one was. -/
theorem response_after_timeouts {s t u : Session} {turns : List Turn} {p q : Peer} {op : Operation}
    {b : Body} (h : History .tardy s turns t p) (hc : ∀ t ∈ turns, t.Clean s.msize.toNat)
    (hrun : (op.perform.runIn t).Runs (Peer.Step .tardy) p (.ok b, u) q) :
    ∃ own given m, q.log = own :: p.log ∧ q.log[turns.countP Turn.isLate]? = some given ∧
      Frame.decode given.2 = .ok m ∧ m.body = b ∧
      ((∀ t ∈ turns, t.result ≠ .error .timedOut) → given = own) := by
  obtain rfl := h.session_eq
  obtain ⟨-, r', hr⟩ := Operation.always_perform _ _ _ hrun
  obtain ⟨frame, rfl, hbody⟩ := hr.body b rfl
  obtain ⟨request, reply, expected, n, hf, ha, ho, rfl, -⟩ := hr.transacted.of_ok
  obtain ⟨given, hg, rfl, m, hm⟩ := (h.backlog hc).received (tardy_reply hf ha) ho
  refine ⟨(request, reply), given, m, rfl, hg, hm, hbody m hm, fun hprompt => ?_⟩
  have hcount : turns.countP Turn.isLate = 0 := by
    rw [List.countP_eq_zero]
    exact fun t ht hlate => hprompt t ht (Turn.isLate_eq_true.1 hlate)
  rw [hcount] at hg
  exact (Option.some.inj hg).symm

/-! ## Two reads, the first of which is given up -/

/-- The request for one byte of fid 1. -/
def oneByteAt (offset : UInt8) : Bytes :=
  [23, 0, 0, 0, 116, 1, 0, 1, 0, 0, 0, offset, 0, 0, 0, 0, 0, 0, 0, 1, 0, 0, 0]

/-- The response of one byte. -/
def oneByte (byte : UInt8) : Bytes := [12, 0, 0, 0, 117, 1, 0, 1, 0, 0, 0, byte]

theorem tardy_oneByte (log : List (Bytes × Bytes)) (offset byte : UInt8) :
    Manners.tardy.answers log (oneByteAt offset) (oneByte byte) := by
  rintro _ _ ⟨⟩ ⟨⟩
  exact ⟨⟨1, .rread [byte]⟩, rfl, rfl, rfl⟩

/-- A session with a time limit. -/
def limited : Session := { timeout := some 20 }

/-- The peer once the first read has been given up: the reply is still to
come. -/
def afterFirst : Peer := Peer.served {} (oneByteAt 0) (oneByte 65)

/-- The peer once the second read has a result. -/
def afterSecond : Peer := (afterFirst.served (oneByteAt 1) (oneByte 66)).skip 12

theorem history_afterFirst :
    History .tardy limited [⟨.read 1 0 1, .error .timedOut, {}, afterFirst⟩] limited afterFirst :=
  .turn (.start rfl) (.ask (.transmit (tardy_oneByte _ 0 65)) (.ask (.stalled trivial) (.done _ _)))

theorem runs_afterSecond : ((Operation.read 1 1 1).perform.runIn limited).Runs (Peer.Step .tardy)
    afterFirst (.ok (.rread [65]), limited) afterSecond := by
  refine .ask (.transmit (tardy_oneByte _ 1 66)) ?_
  refine .ask (.receive 4 ?_ ?_ ?_) (.ask (.receive 8 ?_ ?_ ?_) (.done _ _)) <;> decide

theorem clean_afterFirst :
    ∀ t ∈ [Turn.mk (.read 1 0 1) (.error .timedOut) {} afterFirst],
      t.Clean limited.msize.toNat := by
  intro t ht
  obtain rfl := List.mem_singleton.1 ht
  rintro _ _ ⟨⟩
  exact ⟨by decide, fun _ => rfl⟩

/-- One operation was given up before the second read, which gives out the reply
to the request before its own. -/
theorem response_after_one_timeout :
    ∃ own given m, afterSecond.log = own :: afterFirst.log ∧ afterSecond.log[1]? = some given ∧
      Frame.decode given.2 = .ok m ∧ m.body = .rread [65] := by
  obtain ⟨own, given, m, hown, hgiven, hm, hb, -⟩ :=
    response_after_timeouts history_afterFirst clean_afterFirst runs_afterSecond
  exact ⟨own, given, m, hown, hgiven, hm, hb⟩

/-- Not every result is the reply to the operation's own request: the second read
gives out the byte that the server sent in answer to the first. -/
theorem late_response_given_out :
    ¬ ∀ (s t u : Session) (turns : List Turn) (p q : Peer) (op : Operation) (b : Body),
      s.timeout.isSome → History .tardy s turns t p →
      (op.perform.runIn t).Runs (Peer.Step .tardy) p (.ok b, u) q →
      ∃ own m, q.log = own :: p.log ∧ Frame.decode own.2 = .ok m ∧ m.body = b := by
  intro h
  obtain ⟨own, m, hown, hm, hb⟩ := h _ _ _ _ _ _ _ _ rfl history_afterFirst runs_afterSecond
  obtain rfl : (oneByteAt 1, oneByte 66) = own := (List.cons.inj hown).1
  have hd : Frame.decode (oneByte 66) = .ok ⟨1, .rread [66]⟩ := rfl
  obtain rfl := Except.ok.inj (hd.symm.trans hm)
  exact absurd hb (by decide)

end Session

end NineP
