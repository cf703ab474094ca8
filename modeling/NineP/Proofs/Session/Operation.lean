import NineP.Proofs.Session.Query

/-!
# Operations of one transaction

The operations that send one request of the session and read its response. The
result of each is taken as the body of the response that holds it, so that what
an operation gives out can be compared with what the server sent:

* `Session.Operation.always_transacted`: an operation goes as its transaction
  does, since it is a query whose result is given as a body;
* `Session.Operation.always_perform`: what it gives out is the body of the
  response frame;
* `Session.checkResponse_eq_ok`: a response is accepted if it has the right tag
  and the right type.
-/

namespace NineP

/-- Whether an error is found in a response. -/
def Error.isReceived : Error → Bool
  | .unexpectedResponse .. | .tagMismatch .. | .decode _ | .server _ | .bufferTooSmall .. => true
  | _ => false

namespace Session

/-- A response with the right tag that is neither the expected one nor an error
report is unexpected. -/
theorem checkResponse_eq (tag : UInt16) (expected : MessageType) (frame : Bytes) :
    checkResponse tag expected frame =
      if frameTag frame ≠ tag then .error (.tagMismatch tag (frameTag frame))
      else if frameType frame = expected.id then .ok ()
      else if frameType frame = MessageType.rlerror.id then
        checkErrorReport frame >>= fun _ => .error (.unexpectedResponse expected (frameType frame))
      else .error (.unexpectedResponse expected (frameType frame)) := by
  show (if frameTag frame ≠ tag then _ else _ : Except Error Unit) = _
  by_cases ht : frameTag frame ≠ tag
  · rw [if_pos ht, if_pos ht]
    rfl
  by_cases he : frameType frame = expected.id
  · rw [if_neg ht, if_neg ht, if_pos he, if_pos he]
    rfl
  by_cases hr : frameType frame = MessageType.rlerror.id
  · rw [if_neg ht, if_neg ht, if_neg he, if_neg he, if_pos hr, if_pos hr]
    rfl
  · rw [if_neg ht, if_neg ht, if_neg he, if_neg he, if_neg hr, if_neg hr]
    rfl

/-- A response passes with the right tag and the right type, and no other way. -/
theorem checkResponse_eq_ok {tag : UInt16} {expected : MessageType} {frame : Bytes} :
    checkResponse tag expected frame = .ok () ↔
      frameTag frame = tag ∧ frameType frame = expected.id := by
  rw [checkResponse_eq]
  by_cases ht : frameTag frame = tag
  · rw [if_neg (fun h => h ht)]
    by_cases he : frameType frame = expected.id
    · simp [ht, he]
    · rw [if_neg he]
      by_cases hr : frameType frame = MessageType.rlerror.id
      · rw [if_pos hr]
        cases checkErrorReport frame <;> simp [he, bind, Except.bind]
      · simp [hr, he]
  · simp [ht]

theorem isReceived_of_checkErrorReport {frame : Bytes} {e : Error}
    (h : checkErrorReport frame = .error e) : e.isReceived = true := by
  rw [checkErrorReport, report, relying_except] at h
  split at h
  · cases h
    rfl
  · split at h <;> cases h
    rfl

theorem isReceived_of_checkResponse {tag : UInt16} {expected : MessageType} {frame : Bytes}
    {e : Error} (h : checkResponse tag expected frame = .error e) : e.isReceived = true := by
  rw [checkResponse_eq] at h
  split at h
  · cases h
    rfl
  split at h
  · cases h
  split at h
  · cases hc : checkErrorReport frame with
    | ok u =>
      rw [hc] at h
      cases h
      rfl
    | error e' =>
      rw [hc] at h
      cases h
      exact isReceived_of_checkErrorReport hc
  · cases h
    rfl

/-- Only the time limit makes a time-out. -/
theorem checked_ne_timedOut {tag : UInt16} {expected : MessageType} {capacity n : Nat}
    {stream : Bytes} {response : Except Error Bytes}
    (h : Exchange.outcome capacity stream = (response, n)) :
    checked tag expected response ≠ .error .timedOut := by
  rcases Exchange.result_of_outcome h with ⟨frame, rfl⟩ | rfl | ⟨size, rfl | rfl⟩
  · cases hc : checkResponse tag expected frame with
    | ok u =>
      rw [checked_of_ok hc]
      intro hx
      cases hx
    | error e =>
      rw [checked_of_error hc]
      intro hx
      cases hx
      exact absurd (isReceived_of_checkResponse hc) (by decide)
  · intro hx
    cases hx
  · intro hx
    cases hx
  · intro hx
    cases hx

/-- An operation that sends one request of the session. -/
inductive Operation where
  | walk (fid newfid : UInt32) (names : List String)
  | lopen (fid flags : UInt32)
  | getattr (fid : UInt32) (mask : AttrMask)
  | statfs (fid : UInt32)
  | read (fid : UInt32) (offset : UInt64) (count : UInt32)
  | readdir (fid : UInt32) (cookie : UInt64) (count : UInt32)
  | readlink (fid : UInt32)
  | clunk (fid : UInt32)
  deriving DecidableEq, Repr

namespace Operation

/-- Perform an operation. Its result is given as the body of a response. -/
def perform : Operation → Client Body
  | walk fid newfid names => .rwalk <$> Session.walk fid newfid names
  | lopen fid flags => (fun (qid, iounit) => .rlopen qid iounit) <$> Session.lopen fid flags
  | getattr fid mask => .rgetattr <$> Session.getattr fid mask
  | statfs fid => .rstatfs <$> Session.statfs fid
  | read fid offset count => .rread <$> Session.read fid offset count
  | readdir fid cookie count => .rreaddir <$> Session.readdir fid cookie count
  | readlink fid => .rreadlink <$> Session.readlink fid
  | clunk fid => (fun _ => .rclunk) <$> Session.clunk fid

/-- The request of an operation. -/
def request (s : Session) : Operation → Body
  | walk fid newfid names => .twalk fid newfid names
  | lopen fid flags => .tlopen fid flags
  | getattr fid mask => .tgetattr fid mask
  | statfs fid => .tstatfs fid
  | read fid offset count => .tread fid offset (min count s.readCeiling)
  | readdir fid cookie count => .treaddir fid cookie (min count s.readdirCeiling)
  | readlink fid => .treadlink fid
  | clunk fid => .tclunk fid

/-- Whether an operation establishes no fid and ends none. -/
def isQuiet : Operation → Bool
  | walk .. | clunk _ => false
  | _ => true

theorem exists_response (op : Operation) (s : Session) :
    ∃ expected, (op.request s).type.response? = some expected := by
  cases op <;> exact ⟨_, rfl⟩

theorem payloadFits_request (op : Operation) (s : Session) : (op.request s).PayloadFits := by
  cases op <;> exact trivial

/-- The result of an operation is that of its transaction, read as the body of a
response, unless something in the response is refused. -/
structure Answered (M : Manners) (s : Session) (op : Operation) (p : Peer) (r : Except Error Body)
    (q : Peer) (r' : Except Error Bytes) : Prop where
  transacted : Transacted M s { tag := sessionTag, body := op.request s } s.msize p r' q
  body : ∀ b, r = .ok b → ∃ frame, r' = .ok frame ∧ ∀ m, Frame.decode frame = .ok m → m.body = b
  error : ∀ e, r' = .error e → r = .error e
  refused : ∀ e, r = .error e → r' = .error e ∨ e.isReceived = true

theorem Answered.timedOut_iff {M : Manners} {s : Session} {op : Operation} {p q : Peer}
    {r : Except Error Body} {r' : Except Error Bytes} (h : Answered M s op p r q r') :
    r = .error .timedOut ↔ r' = .error .timedOut := by
  constructor
  · intro hr
    rcases h.refused _ hr with hr' | hr'
    · exact hr'
    · exact absurd hr' (by decide)
  · exact h.error _

/-! ## Operations as queries -/

/-- A query whose result is given as the body of a response. -/
structure Typed where
  Result : Type
  query : Query Result
  view : Result → Body

/-- An operation as a query. -/
def typed : Operation → Typed
  | walk fid newfid names => ⟨_, .walk fid newfid names, .rwalk⟩
  | lopen fid flags => ⟨_, .lopen fid flags, fun (qid, iounit) => .rlopen qid iounit⟩
  | getattr fid mask => ⟨_, .getattr fid mask, .rgetattr⟩
  | statfs fid => ⟨_, .statfs fid, .rstatfs⟩
  | read fid offset count => ⟨_, .read fid offset count, .rread⟩
  | readdir fid cookie count => ⟨_, .readdir fid cookie count, .rreaddir⟩
  | readlink fid => ⟨_, .readlink fid, .rreadlink⟩
  | clunk fid => ⟨_, .clunk fid, fun _ => .rclunk⟩

/-- What an operation gives out for the frame of its response. -/
def gives (s : Session) (op : Operation) (frame : Bytes) : Except Error Body :=
  op.typed.view <$> op.typed.query.gives s frame

variable {M : Manners} {s : Session} {p : Peer}

theorem perform_eq (op : Operation) : op.perform = op.typed.view <$> op.typed.query.perform := by
  cases op <;> rfl

/-- No operation is the handshake, and none asks for a fid of its own. -/
theorem typed_eq (op : Operation) (s : Session) :
    op.typed.query.vetted = .ok () ∧ op.typed.query.tag = sessionTag ∧
      op.typed.query.body s = op.request s ∧ op.typed.query.capacity s = s.msize ∧
      ∀ r, op.typed.query.leaves s r = s := by
  cases op <;> exact ⟨rfl, rfl, rfl, rfl, fun _ => rfl⟩

theorem expected_eq (op : Operation) {expected : MessageType}
    (h : (op.request s).type.response? = some expected) : op.typed.query.expected = expected := by
  obtain ⟨-, -, hbody, -⟩ := op.typed_eq s
  rw [← hbody, op.typed.query.response_body s] at h
  exact Option.some.inj h

/-- An operation goes as its transaction does. -/
theorem always_transacted (op : Operation) :
    Client.Always (Peer.Step M) op.perform s p fun r t q =>
      t = s ∧ ∃ r', Transacted M s { tag := sessionTag, body := op.request s } s.msize p r' q ∧
        r = r' >>= op.gives s := by
  obtain ⟨hvetted, htag, hbody, hcapacity, hleaves⟩ := op.typed_eq s
  rw [perform_eq]
  refine .map ((Query.always_transacted hvetted).mono fun r t q h => ?_)
  obtain ⟨rfl, r', h, rfl⟩ := h
  rw [htag, hbody, hcapacity] at h
  exact ⟨hleaves _, r', h, map_bind ..⟩

/-- The body of a response is given out as it is, or refused. -/
theorem view_of_reading {op : Operation} {b : Body} {r : Except Error op.typed.Result}
    (h : op.typed.query.reading s b = some r) :
    (∃ a, r = .ok a ∧ op.typed.view a = b) ∨ ∃ e, r = .error e ∧ e.isReceived = true := by
  cases op with
  | walk fid newfid names =>
    cases b with
    | rwalk qids =>
      obtain rfl := Option.some.inj h
      split
      · exact .inr ⟨_, rfl, rfl⟩
      split
      · exact .inr ⟨_, rfl, rfl⟩
      · exact .inl ⟨qids, rfl, rfl⟩
    | _ => cases h
  | read fid offset count =>
    cases b with
    | rread data =>
      obtain rfl := Option.some.inj h
      split
      · exact .inr ⟨_, rfl, rfl⟩
      · exact .inl ⟨data, rfl, rfl⟩
    | _ => cases h
  | readlink fid => cases h
  | lopen => cases b <;> cases h; exact .inl ⟨_, rfl, rfl⟩
  | getattr => cases b <;> cases h; exact .inl ⟨_, rfl, rfl⟩
  | statfs => cases b <;> cases h; exact .inl ⟨_, rfl, rfl⟩
  | readdir => cases b <;> cases h; exact .inl ⟨_, rfl, rfl⟩
  | clunk => cases b <;> cases h; exact .inl ⟨_, rfl, rfl⟩

/-- The target of a link that is given out is the one that the response holds. -/
theorem body_of_boundedText {frame rest : Bytes} {capacity : Nat} {target : String} {m : Message}
    (ht : boundedText capacity (frame.drop headerSize) = (.ok target, rest))
    (hm : Frame.decode frame = .ok m) (htype : m.body.type = .rreadlink) :
    m.body = .rreadlink target := by
  obtain ⟨-, -, -, -, hbody⟩ := Frame.header_of_decode hm
  rw [htype] at hbody
  obtain ⟨text, htext, hb⟩ := Reader.map_eq_ok.1 hbody
  obtain ⟨n, mid, hn, htext⟩ := Reader.bind_eq_ok.1 htext
  simp only [boundedText, hn] at ht
  by_cases hc : n.toNat > capacity
  · rw [if_pos hc] at ht
    cases ht
  · rw [if_neg hc, htext] at ht
    cases ht
    exact hb

theorem isReceived_of_boundedText {capacity : Nat} {bs : Bytes} {e : Error}
    (h : (boundedText capacity bs).1 = .error e) : e.isReceived = true := by
  rw [boundedText] at h
  split at h
  · cases h
    rfl
  split at h
  · cases h
    rfl
  split at h <;> cases h
  rfl

/-- What is given out for a frame of the expected type is its body. -/
theorem gives_cases (op : Operation) (s : Session) {frame : Bytes}
    (htype : frameType frame = op.typed.query.expected.id) :
    (∃ b, op.gives s frame = .ok b ∧ ∀ m, Frame.decode frame = .ok m → m.body = b) ∨
      ∃ e, op.gives s frame = .error e ∧ e.isReceived = true := by
  by_cases hl : op.typed.query.expected = .rreadlink
  · cases op with
    | readlink fid =>
      show (∃ b, Body.rreadlink <$> (boundedText maxTarget (frame.drop headerSize)).1 = .ok b ∧ _) ∨
        ∃ e, Body.rreadlink <$> (boundedText maxTarget (frame.drop headerSize)).1 = .error e ∧ _
      cases ht : boundedText maxTarget (frame.drop headerSize) with
      | mk r rest =>
        cases r with
        | ok target =>
          refine .inl ⟨.rreadlink target, rfl, fun m hm => body_of_boundedText ht hm ?_⟩
          obtain ⟨-, -, htype', -⟩ := Frame.header_of_decode hm
          exact MessageType.id_injective (htype'.symm.trans htype)
        | error e => exact .inr ⟨e, rfl, isReceived_of_boundedText (congrArg Prod.fst ht)⟩
    | _ => cases hl
  · rw [gives]
    cases hd : Frame.decode frame with
    | error fault =>
      rw [Query.gives_of_malformed hl hd]
      exact .inr ⟨.decode fault, rfl, rfl⟩
    | ok m =>
      rw [Query.gives_of_decode hl hd]
      cases hr : op.typed.query.reading s m.body with
      | none => exact .inr ⟨.unexpectedResponse .., rfl, rfl⟩
      | some r =>
        obtain ⟨a, rfl, hview⟩ | ⟨e, rfl, he⟩ := view_of_reading hr
        · refine .inl ⟨op.typed.view a, rfl, fun m' hm => ?_⟩
          rw [← Except.ok.inj hm, hview]
        · exact .inr ⟨e, rfl, he⟩

/-- An operation goes as its transaction does, and gives out the body of its
response. -/
theorem always_perform (op : Operation) :
    Client.Always (Peer.Step M) op.perform s p fun r t q =>
      t = s ∧ ∃ r', Answered M s op p r q r' := by
  refine op.always_transacted.mono fun r t q h => ?_
  obtain ⟨ht, r', h, hr⟩ := h
  refine ⟨ht, r', ?_⟩
  cases r' with
  | error e =>
    obtain rfl : r = .error e := hr
    exact ⟨h, nofun, fun _ he => congrArg _ (Except.error.inj he),
      fun _ he => .inl (congrArg _ (Except.error.inj he))⟩
  | ok frame =>
    have hr : r = op.gives s frame := hr
    obtain ⟨request, reply, expected, n, hf, -, -, -, hc⟩ := h.of_ok
    obtain ⟨hresponse, -⟩ := requestFrame_eq_ok.1 hf
    obtain rfl := op.expected_eq hresponse
    obtain ⟨b, hb, hbody⟩ | ⟨e, he, hreceived⟩ := op.gives_cases s (checkResponse_eq_ok.1 hc).2
    · obtain rfl : r = .ok b := hr.trans hb
      refine ⟨h, fun b' hb' => ⟨frame, rfl, fun m hm => ?_⟩, nofun, nofun⟩
      rw [hbody m hm, Except.ok.inj hb']
    · obtain rfl : r = .error e := hr.trans he
      exact ⟨h, nofun, nofun, fun e' he' => .inr (Except.error.inj he' ▸ hreceived)⟩

end Operation

end Session

end NineP
