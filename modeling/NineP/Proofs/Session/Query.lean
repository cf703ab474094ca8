import NineP.Proofs.Session.Transaction

/-!
# Operations as one exchange

Every operation of a session sends one request and makes its result of one
response frame, or of the failure to receive one. What it sends, what it makes
of the frame and how it leaves the session are functions of its arguments and of
the session it begins in:

* `Session.Query.exchanges`: an operation is one exchange between the two;
* `Session.Query.always`: so it is reasoned about by its exchange, in every
  world;
* `Session.Query.always_transacted`: with a server, it goes as its transaction
  does;
* `Session.Query.exists_judge`: a frame of the expected type is always read.
-/

namespace NineP.Session

/-- The operations that exchange one request for one response, by the type of
their results. -/
inductive Query : Type → Type where
  | negotiate (proposal : UInt32) : Query UInt32
  | attach (uname aname : String) : Query (UInt32 × Qid)
  | walk (fid newfid : UInt32) (names : List String) : Query (List Qid)
  | lopen (fid flags : UInt32) : Query (Qid × UInt32)
  | getattr (fid : UInt32) (mask : AttrMask) : Query Attr
  | statfs (fid : UInt32) : Query FsStat
  | read (fid : UInt32) (offset : UInt64) (count : UInt32) : Query Bytes
  | readdir (fid : UInt32) (cookie : UInt64) (count : UInt32) : Query (List DirEntry)
  | readlink (fid : UInt32) : Query String
  | clunk (fid : UInt32) : Query Unit

namespace Query

variable {α : Type}

def perform : Query α → Client α
  | negotiate proposal => Session.negotiate proposal
  | attach uname aname => Session.attach uname aname
  | walk fid newfid names => Session.walk fid newfid names
  | lopen fid flags => Session.lopen fid flags
  | getattr fid mask => Session.getattr fid mask
  | statfs fid => Session.statfs fid
  | read fid offset count => Session.read fid offset count
  | readdir fid cookie count => Session.readdir fid cookie count
  | readlink fid => Session.readlink fid
  | clunk fid => Session.clunk fid

/-- The handshake has a tag of its own. -/
def tag : Query α → UInt16
  | negotiate _ => noTag
  | _ => sessionTag

/-- The request of an operation. -/
def body (s : Session) : Query α → Body
  | negotiate proposal => .tversion proposal protocolVersion
  | attach uname aname => .tattach s.fids.take.1 noFid uname aname
  | walk fid newfid names => .twalk fid newfid names
  | lopen fid flags => .tlopen fid flags
  | getattr fid mask => .tgetattr fid mask
  | statfs fid => .tstatfs fid
  | read fid offset count => .tread fid offset (min count s.readCeiling)
  | readdir fid cookie count => .treaddir fid cookie (min count s.readdirCeiling)
  | readlink fid => .treadlink fid
  | clunk fid => .tclunk fid

/-- The type of the response to an operation. -/
def expected : Query α → MessageType
  | negotiate _ => .rversion
  | attach .. => .rattach
  | walk .. => .rwalk
  | lopen .. => .rlopen
  | getattr .. => .rgetattr
  | statfs _ => .rstatfs
  | read .. => .rread
  | readdir .. => .rreaddir
  | readlink _ => .rreadlink
  | clunk _ => .rclunk

/-- The longest response that an operation receives. -/
def capacity (s : Session) : Query α → UInt32
  | negotiate proposal => proposal
  | _ => s.msize

/-- Whether an operation is neither the handshake nor asks for a fid. -/
def isPlain : Query α → Bool
  | negotiate _ | attach .. | walk .. => false
  | _ => true

theorem response_body (op : Query α) (s : Session) :
    (op.body s).type.response? = some op.expected := by
  cases op <;> rfl

theorem payloadFits_body (op : Query α) (s : Session) : (op.body s).PayloadFits := by
  cases op <;> exact trivial

/-- The arguments that are refused without regard to the session. -/
def vetted : Query α → Except Error Unit
  | negotiate proposal =>
    if proposal < minMsize then .error (.invalidParameter (.msize proposal)) else .ok ()
  | _ => .ok ()

/-- The frame that an operation sends, unless it is refused. -/
def sends (s : Session) (op : Query α) : Except Error Bytes := do
  op.vetted
  let (request, _) ← requestFrame s.msize { tag := op.tag, body := op.body s } (op.capacity s)
  pure request

/-- How an operation reads the body of its response. It has no case for a body of
another type, and the body of a link's target is read in a way of its own. -/
def reading (s : Session) : Query α → Body → Option (Except Error α)
  | negotiate proposal, .rversion msize version => some <|
    if version ≠ protocolVersion then .error (.unsupportedVersion version)
    else if msize < minMsize then .error (.decode (.unusableMsize msize))
    else .ok (min msize proposal)
  | attach _ _, .rattach qid => some (.ok (s.fids.take.1, qid))
  | walk _ _ names, .rwalk qids => some <|
    if qids.length > names.length then
      .error (.decode (.surplusQids qids.length names.length))
    else if qids.length < names.length then .error (.server .notFound)
    else .ok qids
  | lopen _ _, .rlopen qid iounit => some (.ok (qid, iounit))
  | getattr _ _, .rgetattr attr => some (.ok attr)
  | statfs _, .rstatfs stat => some (.ok stat)
  | read _ _ count, .rread data => some <|
    if data.length > (min count s.readCeiling).toNat then
      .error (.decode (.surplusBytes data.length (min count s.readCeiling).toNat))
    else .ok data
  | readdir _ _ _, .rreaddir entries => some (.ok entries)
  | clunk _, .rclunk => some (.ok ())
  | _, _ => none

/-- Read the body of a response frame. -/
def decoded (reading : Body → Option (Except Error α)) (frame : Bytes) :
    Option (Except Error α) :=
  match Frame.decode frame with
  | .ok m => reading m.body
  | .error fault => some (.error (.decode fault))

/-- How an operation reads a response frame of the expected tag and type. -/
def judge (s : Session) : Query α → Bytes → Option (Except Error α)
  | readlink _, frame => some (boundedText maxTarget (frame.drop headerSize)).1
  | op, frame => decoded (op.reading s) frame

/-- The result of an operation, from what comes of its exchange. -/
def result (s : Session) (op : Query α) (response : Except Error Bytes) : Except Error α := do
  let frame ← checked op.tag op.expected response
  (op.judge s frame).getD (.error (.unexpectedResponse op.expected (frameType frame)))

/-- The session after an operation with the given result. -/
def leaves (s : Session) : Query α → Except Error α → Session
  | negotiate _, .ok agreed => { s with msize := agreed, version := protocolVersion }
  | attach _ _, _ => { s with fids := s.fids.take.2 }
  | _, _ => s

end Query

/-! ## Operations as programs -/

section

variable {α : Type} {s : Session} {tag : UInt16} {body : Body} {capacity : UInt32}

/-- A transaction is one exchange, unless its request is refused. -/
theorem runIn_transaction :
    (transaction tag body capacity).runIn s =
      match requestFrame s.msize { tag, body } capacity with
      | .error e => .done (.error e, s)
      | .ok (request, expected) =>
        (exchange request capacity.toNat s.timeout).run >>= fun r =>
          .done (checked tag expected r, s) := by
  show Client.runIn (liftM (requestFrame s.msize { tag, body } capacity) >>= _ : Client _) s = _
  cases requestFrame s.msize { tag, body } capacity with
  | error e => rfl
  | ok found =>
    obtain ⟨request, expected⟩ := found
    show ((exchange request capacity.toNat s.timeout).run >>= fun r => .done (r, s)) >>= _ = _
    rw [bind_assoc]
    refine congrArg ((exchange request capacity.toNat s.timeout).run >>= ·) (funext fun r => ?_)
    cases r with
    | error e => rfl
    | ok frame =>
      show Client.runIn (judge tag expected frame >>= fun _ => pure frame : Client _) s =
        .done (checked tag expected (.ok frame), s)
      rw [judge_eq_lift]
      cases hc : checkResponse tag expected frame with
      | error e =>
        rw [checked_of_error hc]
        rfl
      | ok u =>
        rw [checked_of_ok hc]
        rfl

/-- A transaction whose response frame is judged without further calls. -/
theorem runIn_transaction_bind {k : Bytes → Client α} {judge : Bytes → Except Error α}
    (leaves : Except Error α → Session) (hs : ∀ e, leaves (.error e) = s)
    (hk : ∀ frame, (k frame).runIn s = .done (judge frame, leaves (judge frame))) :
    (transaction tag body capacity >>= k).runIn s =
      match requestFrame s.msize { tag, body } capacity with
      | .error e => .done (.error e, leaves (.error e))
      | .ok (request, expected) =>
        (exchange request capacity.toNat s.timeout).run >>= fun r =>
          .done (checked tag expected r >>= judge, leaves (checked tag expected r >>= judge)) := by
  show (transaction tag body capacity).runIn s >>= _ = _
  rw [runIn_transaction]
  cases requestFrame s.msize { tag, body } capacity with
  | error e => exact congrArg (fun t => Dialogue.done (Except.error e, t)) (hs e).symm
  | ok found =>
    obtain ⟨request, expected⟩ := found
    show (_ >>= _) >>= _ = _ >>= _
    rw [bind_assoc]
    refine congrArg ((exchange request capacity.toNat s.timeout).run >>= ·) (funext fun r => ?_)
    cases hc : checked tag expected r with
    | error e => exact congrArg (fun t => Dialogue.done (Except.error e, t)) (hs e).symm
    | ok frame => exact hk frame

/-- A request whose response body is judged without further calls. A body that
the judgement has no case for is unexpected. -/
theorem runIn_request_bind {k : Body → Client α} {reading : Body → Option (Except Error α)}
    {expected : MessageType} (leaves : Except Error α → Session)
    (hs : ∀ e, leaves (.error e) = s)
    (hk : ∀ b, (k b).runIn s =
      .done ((reading b).getD (.error (unexpected expected b)),
        leaves ((reading b).getD (.error (unexpected expected b))))) :
    (request tag body capacity >>= k).runIn s =
      match requestFrame s.msize { tag, body } capacity with
      | .error e => .done (.error e, leaves (.error e))
      | .ok (request, expected') =>
        (exchange request capacity.toNat s.timeout).run >>= fun r =>
          let result := checked tag expected' r >>= fun frame =>
            (Query.decoded reading frame).getD (.error (.unexpectedResponse expected (frameType frame)))
          .done (result, leaves result) := by
  rw [request, bind_assoc]
  refine runIn_transaction_bind leaves hs fun frame => ?_
  rw [Query.decoded]
  cases hd : Frame.decode frame with
  | error fault =>
    exact congrArg (fun t => Dialogue.done (Except.error (Error.decode fault), t)) (hs _).symm
  | ok m =>
    obtain ⟨-, -, htype, -⟩ := Frame.header_of_decode hd
    rw [htype]
    exact hk m.body

end

namespace Query

variable {α : Type}

/-- How an operation goes: it refuses its request, or it exchanges it and
judges the response. -/
def Exchanges (s : Session) (op : Query α) : Prop :=
  op.perform.runIn s =
    match op.sends s with
    | .error e => .done (.error e, op.leaves s (.error e))
    | .ok request =>
      (exchange request (op.capacity s).toNat s.timeout).run >>= fun r =>
        .done (op.result s r, op.leaves s (op.result s r))

/-- The type of the response is known before the request is written. -/
theorem Exchanges.of_requestFrame {s : Session} {op : Query α} (ha : op.vetted = .ok ())
    (h : op.perform.runIn s =
      match requestFrame s.msize { tag := op.tag, body := op.body s } (op.capacity s) with
      | .error e => .done (.error e, op.leaves s (.error e))
      | .ok (request, expected) =>
        (exchange request (op.capacity s).toNat s.timeout).run >>= fun r =>
          let result := checked op.tag expected r >>= fun frame =>
            (op.judge s frame).getD (.error (.unexpectedResponse op.expected (frameType frame)))
          .done (result, op.leaves s result)) : op.Exchanges s := by
  rw [Exchanges, h, sends, ha]
  cases hf : requestFrame s.msize { tag := op.tag, body := op.body s } (op.capacity s) with
  | error e => rfl
  | ok found =>
    obtain ⟨request, expected⟩ := found
    obtain ⟨hr, -⟩ := requestFrame_eq_ok.1 hf
    obtain rfl := Option.some.inj ((op.response_body s).symm.trans hr)
    rfl

theorem runIn_bind {β : Type} {x : Client α} {f : α → Client β} {s : Session} :
    (x >>= f).runIn s = x.runIn s >>= fun r => (ExceptT.bindCont f r.1).run r.2 := rfl

theorem runIn_freshFid_bind {s : Session} {f : UInt32 → Client α} :
    (Client.freshFid >>= f).runIn s =
      (f s.fids.take.1).runIn { s with fids := s.fids.take.2 } := rfl

theorem runIn_get_bind {s : Session} {f : Session → Client α} :
    (get >>= f).runIn s = (f s).runIn s := rfl

theorem runIn_call_bind {s : Session} {body : Body} {f : Body → Client α} :
    (call body >>= f).runIn s = (request sessionTag body s.msize >>= f).runIn s := by
  have h : (call body).runIn s = (request sessionTag body s.msize).runIn s := runIn_get_bind
  rw [runIn_bind, runIn_bind, h]

/-- An operation that sends one request of the session and reads the body of its
response. -/
theorem Exchanges.of_call {s t : Session} {op : Query α} {body : Body} {k : Body → Client α}
    (hp : op.perform.runIn s = (call body >>= k).runIn t)
    (ht : t.msize = s.msize ∧ t.timeout = s.timeout) (ha : op.vetted = .ok ())
    (hb : op.tag = sessionTag ∧ op.body s = body ∧ op.capacity s = s.msize)
    (hj : op.judge s = decoded (op.reading s)) (hs : ∀ e, op.leaves s (.error e) = t)
    (hk : ∀ b, (k b).runIn t =
      .done ((op.reading s b).getD (.error (unexpected op.expected b)),
        op.leaves s ((op.reading s b).getD (.error (unexpected op.expected b))))) :
    op.Exchanges s := by
  refine .of_requestFrame ha ?_
  obtain ⟨htag, hbody, hcapacity⟩ := hb
  rw [hp, runIn_call_bind, hj, htag, hbody, hcapacity, ← ht.1, ← ht.2]
  exact runIn_request_bind (op.leaves s) hs hk

/-- An operation is the exchange of the frame that it sends, if it sends one. -/
theorem exchanges (s : Session) (op : Query α) : op.Exchanges s := by
  cases op with
  | negotiate proposal =>
    by_cases hp : proposal < minMsize
    · have hrefused : Session.negotiate proposal = throw (.invalidParameter (.msize proposal)) :=
        if_pos hp
      rw [Exchanges, sends, vetted, if_pos hp, perform, hrefused]
      rfl
    · refine .of_requestFrame (if_neg hp) ?_
      rw [perform, Session.negotiate, if_neg hp]
      refine runIn_request_bind (leaves s (negotiate proposal)) (fun _ => rfl) fun b => ?_
      cases b with
      | rversion msize version =>
        show Client.runIn (if version ≠ protocolVersion then _ else _ : Client _) s =
          .done (if _ then _ else _, leaves s _ (if _ then _ else _))
        by_cases hv : version ≠ protocolVersion
        · rw [if_pos hv, if_pos hv]
          rfl
        obtain rfl := not_not.1 hv
        rw [if_neg hv, if_neg hv]
        by_cases hm : msize < minMsize
        · rw [if_pos hm, if_pos hm]
          rfl
        · rw [if_neg hm, if_neg hm]
          rfl
      | _ => rfl
  | attach uname aname =>
    refine .of_call runIn_freshFid_bind ⟨rfl, rfl⟩ rfl ⟨rfl, rfl, rfl⟩ rfl (fun _ => rfl) fun b => ?_
    cases b <;> rfl
  | walk fid newfid names =>
    refine .of_call rfl ⟨rfl, rfl⟩ rfl ⟨rfl, rfl, rfl⟩ rfl (fun _ => rfl) fun b => ?_
    cases b with
    | rwalk qids =>
      show Client.runIn (if qids.length > names.length then _ else _ : Client _) s =
        .done (if _ then _ else _, s)
      by_cases hl : qids.length > names.length
      · rw [if_pos hl, if_pos hl]
        rfl
      rw [if_neg hl, if_neg hl]
      by_cases hs : qids.length < names.length
      · rw [if_pos hs, if_pos hs]
        rfl
      · rw [if_neg hs, if_neg hs]
        rfl
    | _ => rfl
  | lopen fid flags =>
    refine .of_call rfl ⟨rfl, rfl⟩ rfl ⟨rfl, rfl, rfl⟩ rfl (fun _ => rfl) fun b => ?_
    cases b <;> rfl
  | getattr fid mask =>
    refine .of_call rfl ⟨rfl, rfl⟩ rfl ⟨rfl, rfl, rfl⟩ rfl (fun _ => rfl) fun b => ?_
    cases b <;> rfl
  | statfs fid =>
    refine .of_call rfl ⟨rfl, rfl⟩ rfl ⟨rfl, rfl, rfl⟩ rfl (fun _ => rfl) fun b => ?_
    cases b <;> rfl
  | read fid offset count =>
    refine .of_call runIn_get_bind ⟨rfl, rfl⟩ rfl ⟨rfl, rfl, rfl⟩ rfl (fun _ => rfl) fun b => ?_
    cases b with
    | rread data =>
      show Client.runIn (if data.length > (min count s.readCeiling).toNat then _ else _ : Client _) s =
        .done (if _ then _ else _, s)
      by_cases hl : data.length > (min count s.readCeiling).toNat
      · rw [if_pos hl, if_pos hl]
        rfl
      · rw [if_neg hl, if_neg hl]
        rfl
    | _ => rfl
  | readdir fid cookie count =>
    refine .of_call runIn_get_bind ⟨rfl, rfl⟩ rfl ⟨rfl, rfl, rfl⟩ rfl (fun _ => rfl) fun b => ?_
    cases b <;> rfl
  | readlink fid =>
    refine .of_requestFrame rfl ?_
    rw [perform, Session.readlink, runIn_get_bind]
    exact runIn_transaction_bind _ (fun _ => rfl) fun _ => rfl
  | clunk fid =>
    refine .of_call rfl ⟨rfl, rfl⟩ rfl ⟨rfl, rfl, rfl⟩ rfl (fun _ => rfl) fun b => ?_
    cases b <;> rfl

/-! ## Requests and responses -/

variable {s : Session} {op : Query α}

theorem sends_eq_ok {request : Bytes} :
    op.sends s = .ok request ↔ op.vetted = .ok () ∧
      requestFrame s.msize { tag := op.tag, body := op.body s } (op.capacity s) =
        .ok (request, op.expected) := by
  rw [sends]
  cases ha : op.vetted with
  | error e =>
    constructor
    · intro hx
      cases hx
    · intro hx
      obtain ⟨⟨⟩, -⟩ := hx
  | ok u =>
    cases hf : requestFrame s.msize { tag := op.tag, body := op.body s } (op.capacity s) with
    | error e =>
      constructor
      · intro hx
        cases hx
      · intro hx
        obtain ⟨-, ⟨⟩⟩ := hx
    | ok found =>
      obtain ⟨request', expected⟩ := found
      obtain ⟨hr, -⟩ := requestFrame_eq_ok.1 hf
      obtain rfl := Option.some.inj ((op.response_body s).symm.trans hr)
      constructor
      · intro hx
        cases hx
        exact ⟨rfl, rfl⟩
      · intro hx
        obtain ⟨-, h⟩ := hx
        cases h
        rfl

/-- Only a body of the expected type is read, and every one is, unless the target
of a link is expected. -/
theorem isSome_reading {b : Body} :
    (op.reading s b).isSome = true ↔ op.expected ≠ .rreadlink ∧ b.type = op.expected := by
  cases op with
  | negotiate =>
    cases b with
    | rversion => exact ⟨fun _ => ⟨nofun, rfl⟩, fun _ => rfl⟩
    | _ => exact ⟨nofun, fun h => nomatch h.2⟩
  | attach =>
    cases b with
    | rattach => exact ⟨fun _ => ⟨nofun, rfl⟩, fun _ => rfl⟩
    | _ => exact ⟨nofun, fun h => nomatch h.2⟩
  | walk =>
    cases b with
    | rwalk => exact ⟨fun _ => ⟨nofun, rfl⟩, fun _ => rfl⟩
    | _ => exact ⟨nofun, fun h => nomatch h.2⟩
  | lopen =>
    cases b with
    | rlopen => exact ⟨fun _ => ⟨nofun, rfl⟩, fun _ => rfl⟩
    | _ => exact ⟨nofun, fun h => nomatch h.2⟩
  | getattr =>
    cases b with
    | rgetattr => exact ⟨fun _ => ⟨nofun, rfl⟩, fun _ => rfl⟩
    | _ => exact ⟨nofun, fun h => nomatch h.2⟩
  | statfs =>
    cases b with
    | rstatfs => exact ⟨fun _ => ⟨nofun, rfl⟩, fun _ => rfl⟩
    | _ => exact ⟨nofun, fun h => nomatch h.2⟩
  | read =>
    cases b with
    | rread => exact ⟨fun _ => ⟨nofun, rfl⟩, fun _ => rfl⟩
    | _ => exact ⟨nofun, fun h => nomatch h.2⟩
  | readdir =>
    cases b with
    | rreaddir => exact ⟨fun _ => ⟨nofun, rfl⟩, fun _ => rfl⟩
    | _ => exact ⟨nofun, fun h => nomatch h.2⟩
  | readlink => exact ⟨nofun, fun h => absurd rfl h.1⟩
  | clunk =>
    cases b with
    | rclunk => exact ⟨fun _ => ⟨nofun, rfl⟩, fun _ => rfl⟩
    | _ => exact ⟨nofun, fun h => nomatch h.2⟩

theorem exists_reading {b : Body} (hl : op.expected ≠ .rreadlink) (h : b.type = op.expected) :
    ∃ r, op.reading s b = some r :=
  Option.isSome_iff_exists.1 (isSome_reading.2 ⟨hl, h⟩)

theorem type_of_reading {b : Body} {r : Except Error α} (h : op.reading s b = some r) :
    b.type = op.expected :=
  (isSome_reading.1 (Option.isSome_iff_exists.2 ⟨r, h⟩)).2

theorem judge_of_ne (h : op.expected ≠ .rreadlink) (frame : Bytes) :
    op.judge s frame = decoded (op.reading s) frame := by
  cases op with
  | readlink => exact absurd rfl h
  | _ => rfl

/-- A frame of the expected type is always read: as its body, or as malformed. -/
theorem exists_judge {frame : Bytes} (h : frameType frame = op.expected.id) :
    ∃ r, op.judge s frame = some r := by
  by_cases hl : op.expected = .rreadlink
  · cases op with
    | readlink => exact ⟨_, rfl⟩
    | _ => cases hl
  · rw [judge_of_ne hl, decoded]
    cases hd : Frame.decode frame with
    | error fault => exact ⟨_, rfl⟩
    | ok m =>
      obtain ⟨-, -, htype, -⟩ := Frame.header_of_decode hd
      exact exists_reading hl (MessageType.id_injective (htype.symm.trans h))

/-- What holds after every exchange of the frame that is sent, and of a request
that is refused, holds after the operation. -/
theorem always {σ : Type} {step : σ → Call → Answer → σ → Prop} {p : σ}
    {Q : Except Error α → Session → σ → Prop}
    (hunsent : ∀ e, op.sends s = .error e → Q (.error e) (op.leaves s (.error e)) p)
    (hsent : ∀ request, op.sends s = .ok request →
      (exchange request (op.capacity s).toNat s.timeout).Always step p fun r q =>
        Q (op.result s r) (op.leaves s (op.result s r)) q) :
    Client.Always step op.perform s p Q := by
  rw [Client.Always, exchanges s op]
  cases hf : op.sends s with
  | error e => exact .done (hunsent e hf)
  | ok request => exact Dialogue.Always.bind (hsent request hf) fun r q hq => .done hq

/-- What an operation makes of the frame that its transaction receives. -/
def gives (s : Session) (op : Query α) (frame : Bytes) : Except Error α :=
  (op.judge s frame).getD (.error (.unexpectedResponse op.expected (frameType frame)))

theorem result_eq (response : Except Error Bytes) :
    op.result s response = checked op.tag op.expected response >>= op.gives s := rfl

theorem gives_of_malformed {frame : Bytes} {fault : Fault} (hl : op.expected ≠ .rreadlink)
    (hd : Frame.decode frame = .error fault) : op.gives s frame = .error (.decode fault) := by
  rw [gives, judge_of_ne hl, decoded, hd]
  rfl

theorem gives_of_decode {frame : Bytes} {m : Message} (hl : op.expected ≠ .rreadlink)
    (hd : Frame.decode frame = .ok m) :
    op.gives s frame = (op.reading s m.body).getD
      (.error (.unexpectedResponse op.expected (frameType frame))) := by
  rw [gives, judge_of_ne hl, decoded, hd]

/-- With a server, an operation whose arguments are not refused goes as its
transaction does. -/
theorem always_transacted {M : Manners} {p : Peer} (hv : op.vetted = .ok ()) :
    Client.Always (Peer.Step M) op.perform s p fun r t q =>
      t = op.leaves s r ∧ ∃ r',
        Transacted M s { tag := op.tag, body := op.body s } (op.capacity s) p r' q ∧
          r = r' >>= op.gives s := by
  refine always (fun e he => ?_) fun request hf => ?_
  · rw [sends, hv] at he
    cases hf : requestFrame s.msize { tag := op.tag, body := op.body s } (op.capacity s) with
    | error e' =>
      rw [hf] at he
      obtain rfl : e' = e := Except.error.inj he
      exact ⟨rfl, .error e', .refused hf, rfl⟩
    | ok found =>
      rw [hf] at he
      cases he
  · obtain ⟨-, hf⟩ := sends_eq_ok.1 hf
    refine Exchange.Always.exchange.mono fun response q h => ⟨rfl, ?_⟩
    obtain ⟨reply, ha, ⟨n, ho, rfl⟩ | ⟨hstalls, rfl, k, rfl⟩⟩ := h
    · exact ⟨_, .answered hf ha ho, result_eq response⟩
    · exact ⟨_, .timedOut k hf ha hstalls, rfl⟩

end Query

end NineP.Session
