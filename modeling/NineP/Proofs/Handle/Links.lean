import NineP.Proofs.Handle.Runs
import NineP.Proofs.Session.Meaning
import NineP.Proofs.World.Scripted

/-!
# Targets of links

The target of a link is fetched by the first call that wants it and is kept from then
on. A call that fails to fetch it leaves the handle as it was, and one that lacks the
room to give it out has fetched it all the same:

* `Link.Call.leads`: what one call does to what is known of the target;
* `Link.History.fetched`: so a history of calls is one of vain attempts, followed by one
  fetch and by calls that ask for nothing, as far as it goes;
* `Link.fetched_once`: the same for a handle that is new or not, and no history is the
  last.
-/

namespace NineP

/-- The result of an operation that is attempted, be it a failure. -/
theorem HandleClient.Always.attempt {σ α : Type} {step : σ → NineP.Call → Answer → σ → Prop}
    {x : HandleClient α} {h : Handle} {s : Session} {p : σ}
    {R : Except Error α → Handle → Session → σ → Prop} (hx : x.Always step h s p R) :
    (HandleClient.attempt x).Always step h s p fun r g t q => ∃ r', r = .ok r' ∧ R r' g t q := by
  show Dialogue.Always step ((x.run.run h).run s >>= fun r => .done ((Except.ok r.1.1, r.1.2), r.2))
    p _
  exact Dialogue.Always.bind hx fun r q hr => .done ⟨r.1.1, rfl, hr⟩

namespace Link

/-- What may be asked of the handle of a link. The bytes of a target go to the front of
the caller's buffer. -/
inductive Call where
  | read (buffer : Bytes)
  | readLink (buffer : Bytes)
  | linkTarget
  | getInfo
  | setPosition (position : UInt64)
  deriving DecidableEq, Repr

/-- What the caller has afterwards. -/
inductive Reply where
  /-- The number of bytes that were read, and the buffer. -/
  | count (result : Except Error Nat) (buffer : Bytes)
  | text (result : Except Error String)
  | info (result : Except Error FileInfo)
  | position (result : Except Error Unit)
  deriving DecidableEq, Repr

/-- The buffer once bytes have been read to its front, or none. -/
def Reply.read (buffer : Bytes) : Except Error Bytes → Reply
  | .ok bytes => .count (.ok bytes.length) (bytes ++ buffer.drop bytes.length)
  | .error e => .count (.error e) buffer

/-- The bytes that a read puts into the caller's buffer. -/
def bytesOf : Handle.Outcome → Bytes
  | .data bytes | .link bytes => bytes
  | .entry _ => []

/-- A call as an operation on a handle, which has a reply even if it fails. -/
def Call.perform : Call → HandleClient Reply
  | read buffer =>
    Reply.read buffer <$> HandleClient.attempt (bytesOf <$> Handle.read buffer.length)
  | readLink buffer => Reply.read buffer <$> HandleClient.attempt (Handle.readLink buffer.length)
  | linkTarget => .text <$> HandleClient.attempt Handle.linkTarget
  | getInfo => .info <$> HandleClient.attempt Handle.getInfo
  | setPosition position => .position <$> HandleClient.attempt (Handle.setPosition position)

/-- The reply when the target is read: its bytes at the front of the buffer, if it holds
as many, or else the buffer as it was. -/
def Reply.ofTarget (buffer : Bytes) : Except Error String → Reply
  | .ok target =>
    if target.utf8ByteSize ≤ buffer.length then
      .count (.ok target.utf8ByteSize) (Text.toBytes target ++ buffer.drop target.utf8ByteSize)
    else .count (.error (.bufferTooSmall target.utf8ByteSize buffer.length)) buffer
  | .error e => .count (.error e) buffer

/-- The reply of a call that wants the target, when this comes of fetching it or has come
of it before. The others want something else. -/
def Call.reply? (r : Except Error String) : Call → Option Reply
  | read buffer | readLink buffer => some (.ofTarget buffer r)
  | linkTarget => some (.text r)
  | getInfo | setPosition _ => none

/-- One call of a history: the session that it begins in, its reply, and what has gone
over the wire before and after it. -/
structure Use where
  call : Call
  session : Session
  before : Wire
  reply : Reply
  after : Wire

/-- A history of a handle, from its first call to its last. Each call may begin in any
session and after anything has gone over the wire, so that anything may be done with
other handles in between. -/
inductive History : Handle → List Use → Handle → Prop where
  | nil (h : Handle) : History h [] h
  | cons {h f g : Handle} {use : Use} {uses : List Use} {t : Session} :
    use.call.perform.Runs Wire.Step h use.session use.before (.ok use.reply) f t use.after →
    History f uses g → History h (use :: uses) g

namespace Use

/-- A call that wants something else than the target. It sends no request for it. -/
def Aside (use : Use) : Prop :=
  (∀ r, use.call.reply? r = none) ∧ ∃ sent, use.after = sent ++ use.before ∧
    ∀ entry ∈ sent, ∃ b answer, Wire.exchanged? entry = some (b, answer) ∧ b.type ≠ .treadlink

/-- A call that gives out the target and sends nothing, or wants something else. -/
def Recalls (target : String) (use : Use) : Prop :=
  use.call.reply? (.ok target) = some use.reply ∧ use.after = use.before ∨ use.Aside

/-- A call that fetches the target, with this result. Its request is sent if the
session's message size is one that is ever agreed on. -/
structure Asks (fid : UInt32) (r : Except Error String) (use : Use) : Prop where
  reply : use.call.reply? r = some use.reply
  recorded : (Session.Query.readlink fid).Recorded use.session use.before r use.after
  sent : minMsize ≤ use.session.msize → ∃ request heard,
    use.after = (request, heard) :: use.before ∧
      Frame.decode request = .ok ⟨sessionTag, .treadlink fid⟩

/-- A call that fails to fetch the target, or wants something else. -/
def Misses (fid : UInt32) (use : Use) : Prop :=
  (∃ e, use.Asks fid (.error e)) ∨ use.Aside

theorem Asks.of_recorded {use : Use} {fid : UInt32} {r : Except Error String}
    (hreply : use.call.reply? r = some use.reply)
    (hr : (Session.Query.readlink fid).Recorded use.session use.before r use.after) :
    use.Asks fid r := by
  refine ⟨hreply, hr, fun hs => ?_⟩
  let op : Session.Query String := .readlink fid
  obtain ⟨request, hsent⟩ : ∃ request, op.sends use.session = .ok request :=
    Session.Query.sends_of_isPlain rfl hs
  obtain ⟨-, request, heard, hf, hlog⟩ | ⟨hunsent, -⟩ := hr.request
  · exact ⟨request, heard, hlog, (Session.Query.decode_of_sends hf).1 trivial⟩
  · exact absurd (Session.Query.sendable_of_sends hsent) hunsent

/-- How a call leads from what is known of the target to what is known then. -/
inductive Leads (fid : UInt32) (use : Use) : Option String → Option String → Prop where
  | aside {known : Option String} : use.Aside → Leads fid use known known
  | recalled {target : String} : use.call.reply? (.ok target) = some use.reply →
    use.after = use.before → Leads fid use (some target) (some target)
  | fetched {target : String} : use.Asks fid (.ok target) → Leads fid use none (some target)
  | missed {e : Error} : use.Asks fid (.error e) → Leads fid use none none

theorem Leads.of_some {fid : UInt32} {use : Use} {target : String} {known : Option String}
    (h : use.Leads fid (some target) known) : known = some target ∧ use.Recalls target := by
  cases h with
  | aside ha => exact ⟨rfl, .inr ha⟩
  | recalled hreply hlog => exact ⟨rfl, .inl ⟨hreply, hlog⟩⟩

theorem Leads.of_none {fid : UInt32} {use : Use} {known : Option String}
    (h : use.Leads fid none known) : known = none ∧ use.Misses fid ∨
      ∃ target, known = some target ∧ use.Asks fid (.ok target) := by
  cases h with
  | aside ha => exact .inl ⟨rfl, .inr ha⟩
  | fetched ha => exact .inr ⟨_, rfl, ha⟩
  | missed ha => exact .inl ⟨rfl, .inl ⟨_, ha⟩⟩

end Use

/-! ## One call -/

/-- What comes of asking a handle for the target, and the handle and the record then. -/
inductive Targets (h : Handle) (s : Session) (log : Wire) :
    Except Error String → Handle → Wire → Prop where
  | recalled {target : String} : h.target = some target → Targets h s log (.ok target) h log
  | fetched {target : String} {log' : Wire} : h.target = none →
    (Session.Query.readlink h.location.fid).Recorded s log (.ok target) log' →
    Targets h s log (.ok target) { h with target := some target } log'
  | missed {e : Error} {log' : Wire} : h.target = none →
    (Session.Query.readlink h.location.fid).Recorded s log (.error e) log' →
    Targets h s log (.error e) h log'

variable {h : Handle} {s : Session} {log : Wire}

theorem always_linkTarget (hk : h.kind = .symlink) :
    Handle.linkTarget.Always Wire.Step h s log fun r g _ log' => Targets h s log r g log' := by
  refine .get_bind (.refuse (fun hne => absurd hk hne) fun _ => ?_)
  cases htarget : h.target with
  | some target => exact .pure (.recalled htarget)
  | none =>
    have hread : Client.Always Wire.Step (Session.Query.readlink h.location.fid).perform s log _ :=
      Session.Query.always_recorded
    refine .ofClient_bind hread (fun target t log' hr => ?_) fun e t log' hr => ?_
    · exact .set_bind (.pure (.fetched htarget hr.2))
    · exact .missed htarget hr.2

/-- The bytes of the target are given out if there is room for them. -/
theorem always_readLink {buffer : Bytes} (hk : h.kind = .symlink) :
    (Handle.readLink buffer.length).Always Wire.Step h s log fun r g _ log' =>
      ∃ r', Targets h s log r' g log' ∧ Reply.read buffer r = Reply.ofTarget buffer r' := by
  refine (always_linkTarget hk).bind (fun target g t log' ht => ?_)
    fun e g t log' ht => ⟨_, ht, rfl⟩
  refine .refuse (fun hlt => ⟨_, ht, ?_⟩) fun hle => .pure ⟨_, ht, ?_⟩
  · rw [Reply.read, Reply.ofTarget, if_neg (Nat.not_le.2 hlt)]
  · rw [Reply.read, Reply.ofTarget, if_pos (Nat.not_lt.1 hle), Text.length_toBytes]

/-- What is asked for aside sends no request for a target. -/
theorem always_getInfo :
    Handle.getInfo.Always Wire.Step h s log fun _ g _ log' =>
      (g.kind = h.kind ∧ g.location = h.location ∧ g.target = h.target) ∧
        ∃ sent, log' = sent ++ log ∧ ∀ entry ∈ sent, ∃ b answer,
          Wire.exchanged? entry = some (b, answer) ∧ b.type ≠ .treadlink := by
  let op : Session.Query Attr := .getattr h.location.fid .all
  have hattr : Client.Always Wire.Step op.perform s log _ := Session.Query.always_told trivial
  have told {r : Except Error Attr} {log' : Wire}
      (ht : op.Told s log r log') :
      ∃ sent, log' = sent ++ log ∧ ∀ entry ∈ sent, ∃ b answer,
        Wire.exchanged? entry = some (b, answer) ∧ b.type ≠ .treadlink := by
    cases ht with
    | unsent _ => exact ⟨[], rfl, by simp⟩
    | sent he =>
      refine ⟨[_], rfl, fun entry hm => ⟨_, _, List.mem_singleton.1 hm ▸ he, fun h => ?_⟩⟩
      cases h
  refine .get_bind (.ofClient_bind hattr (fun attr t log' ht => ?_) fun e t log' ht => ?_)
  · exact .set_bind (.pure ⟨⟨rfl, rfl, rfl⟩, told ht.2⟩)
  · exact ⟨⟨rfl, rfl, rfl⟩, told ht.2⟩

theorem always_setPosition {position : UInt64} :
    (Handle.setPosition position).Always Wire.Step h s log fun _ g _ log' =>
      (g.kind = h.kind ∧ g.location = h.location ∧ g.target = h.target) ∧ log' = log := by
  have hkept : (h.kind = h.kind ∧ h.location = h.location ∧ h.target = h.target) ∧ log = log :=
    ⟨⟨rfl, rfl, rfl⟩, rfl⟩
  refine .get_bind ?_
  show HandleClient.Always _ (if h.kind = .directory then _ else _) _ _ _ _
  split
  · exact .refuse (fun _ => hkept) fun _ => Dialogue.Always.done hkept
  · exact Dialogue.Always.done hkept

/-- A read of a link is one of its target. -/
theorem always_read {buffer : Bytes} (hk : h.kind = .symlink) :
    (bytesOf <$> Handle.read buffer.length).Always Wire.Step h s log fun r g _ log' =>
      ∃ r', Targets h s log r' g log' ∧ Reply.read buffer r = Reply.ofTarget buffer r' := by
  refine .map (.get_bind ?_)
  rw [hk]
  refine .map ((always_readLink hk).mono fun r g t log' hr => ?_)
  cases r <;> exact hr

/-- The handle after a call is that of the same link. -/
structure Use.Turns (use : Use) (h g : Handle) : Prop where
  kind : g.kind = h.kind
  location : g.location = h.location
  leads : use.Leads h.location.fid h.target g.target

/-- What a call that wants the target leaves behind. -/
theorem Targets.turns {call : Call} {g : Handle} {reply : Reply} {r : Except Error String}
    {log' : Wire} (ht : Targets h s log r g log') (hreply : call.reply? r = some reply) :
    Use.Turns ⟨call, s, log, reply, log'⟩ h g := by
  cases ht with
  | recalled htarget => exact ⟨rfl, rfl, htarget ▸ .recalled hreply rfl⟩
  | fetched htarget hr => exact ⟨rfl, rfl, htarget ▸ .fetched (.of_recorded hreply hr)⟩
  | missed htarget hr => exact ⟨rfl, rfl, htarget ▸ .missed (.of_recorded hreply hr)⟩

/-- What any other call leaves behind. -/
theorem Use.Aside.turns {use : Use} {g : Handle} (ha : use.Aside)
    (hg : g.kind = h.kind ∧ g.location = h.location ∧ g.target = h.target) : use.Turns h g :=
  ⟨hg.1, hg.2.1, hg.2.2 ▸ .aside ha⟩

/-- One call on the handle of a link. -/
theorem Call.always (call : Call) (hk : h.kind = .symlink) :
    call.perform.Always Wire.Step h s log fun r g _ log' =>
      ∃ reply, r = .ok reply ∧ Use.Turns ⟨call, s, log, reply, log'⟩ h g := by
  cases call with
  | read buffer =>
    refine .map ((always_read hk).attempt.mono ?_)
    rintro _ g t log' ⟨r, rfl, r', ht, hr⟩
    exact ⟨_, rfl, ht.turns (congrArg some hr.symm)⟩
  | readLink buffer =>
    refine .map ((always_readLink hk).attempt.mono ?_)
    rintro _ g t log' ⟨r, rfl, r', ht, hr⟩
    exact ⟨_, rfl, ht.turns (congrArg some hr.symm)⟩
  | linkTarget =>
    refine .map ((always_linkTarget hk).attempt.mono ?_)
    rintro _ g t log' ⟨r, rfl, ht⟩
    exact ⟨_, rfl, ht.turns rfl⟩
  | getInfo =>
    refine .map (always_getInfo.attempt.mono ?_)
    rintro _ g t log' ⟨r, rfl, hg, hsent⟩
    exact ⟨_, rfl, Use.Aside.turns ⟨fun _ => rfl, hsent⟩ hg⟩
  | setPosition position =>
    refine .map (always_setPosition.attempt.mono ?_)
    rintro _ g t log' ⟨r, rfl, hg, rfl⟩
    exact ⟨_, rfl, Use.Aside.turns ⟨fun _ => rfl, [], rfl, by simp⟩ hg⟩

/-! ## Histories -/

namespace History

variable {g : Handle} {uses : List Use}

/-- Whatever has been called, any call may be next. -/
theorem extend (hu : History h uses g) (hk : h.kind = .symlink) (call : Call) (s : Session)
    (log : Wire) : ∃ use f, use.call = call ∧ use.session = s ∧ use.before = log ∧
      History h (uses ++ [use]) f := by
  induction hu with
  | nil h =>
    obtain ⟨r, g, t, log', hrun⟩ := HandleClient.Runs.total Wire.Step.total call.perform h s log
    obtain ⟨reply, rfl, -⟩ := (call.always hk).of_runs hrun
    exact ⟨⟨call, s, log, reply, log'⟩, g, rfl, rfl, rfl, .cons hrun (.nil g)⟩
  | @cons h f g use uses t hrun _ ih =>
    obtain ⟨reply, hr, hturns⟩ := (use.call.always hk).of_runs hrun
    obtain ⟨next, f', hcall, hs, hlog, hnext⟩ := ih (hturns.kind.trans hk)
    exact ⟨next, f', hcall, hs, hlog, .cons hrun hnext⟩

/-- A target that is known is known ever after, and no call asks for it. -/
theorem recalls {target : String} (hu : History h uses g) (hk : h.kind = .symlink)
    (ht : h.target = some target) :
    g.target = some target ∧ ∀ use ∈ uses, use.Recalls target := by
  induction hu with
  | nil h => exact ⟨ht, by simp⟩
  | @cons h f g use uses t hrun _ ih =>
    obtain ⟨reply, hr, hturns⟩ := (use.call.always hk).of_runs hrun
    obtain rfl := Except.ok.inj hr
    obtain ⟨hf, hrecalls⟩ := (ht ▸ hturns.leads).of_some
    obtain ⟨hg, hrest⟩ := ih (hturns.kind.trans hk) hf
    exact ⟨hg, List.forall_mem_cons.2 ⟨hrecalls, hrest⟩⟩

/-- Calls have failed to fetch the target, or after some that have, one has fetched it
and those behind it know it. -/
theorem fetched (hu : History h uses g) (hk : h.kind = .symlink) (hn : h.target = none) :
    (g.target = none ∧ ∀ use ∈ uses, use.Misses h.location.fid) ∨
      ∃ tried first later target, uses = tried ++ first :: later ∧
        (∀ use ∈ tried, use.Misses h.location.fid) ∧ first.Asks h.location.fid (.ok target) ∧
        (∀ use ∈ later, use.Recalls target) ∧ g.target = some target := by
  induction hu with
  | nil h => exact .inl ⟨hn, by simp⟩
  | @cons h f g use uses t hrun hrest ih =>
    obtain ⟨reply, hr, hturns⟩ := (use.call.always hk).of_runs hrun
    obtain rfl := Except.ok.inj hr
    have hkind := hturns.kind.trans hk
    rcases (hn ▸ hturns.leads).of_none with ⟨hf, hmisses⟩ | ⟨target, hf, hasks⟩
    · have hcons {tried : List Use} (htried : ∀ use ∈ tried, use.Misses f.location.fid) :
          ∀ next ∈ use :: tried, next.Misses h.location.fid :=
        List.forall_mem_cons.2 ⟨hmisses, hturns.location ▸ htried⟩
      rcases ih hkind hf with
        ⟨hg, hall⟩ | ⟨tried, first, later, target, rfl, htried, hfirst, hlater⟩
      · exact .inl ⟨hg, hcons hall⟩
      · exact .inr ⟨use :: tried, first, later, target, rfl, hcons htried,
          hturns.location ▸ hfirst, hlater⟩
    · obtain ⟨hg, hlater⟩ := hrest.recalls hkind hf
      exact .inr ⟨[], use, uses, target, rfl, by simp, hasks, hlater, hg⟩

end History

/-- A link's target is fetched once. Whatever is called on the handle of a link, with
whatever room and in whatever sessions, and whatever the server and the transport do: as
long as no target is known, a call that wants it asks the server for it, and if that
fails, so does the call, and the next one that wants it asks again. The first call that
is answered with a target makes it known, be there room for it or not. From then on no
request for a target is sent, and each call that wants the target replies with this one:
its text, or its bytes at the front of the buffer with their number, or, if the buffer
holds fewer, how many are needed. Any call may be next. -/
theorem fetched_once {h g : Handle} {uses : List Use} (hk : h.kind = .symlink)
    (hu : History h uses g) :
    (∀ call s log, ∃ use f, use.call = call ∧ use.session = s ∧ use.before = log ∧
      History h (uses ++ [use]) f) ∧
    (∀ target, h.target = some target →
      g.target = some target ∧ ∀ use ∈ uses, use.Recalls target) ∧
    (h.target = none → (g.target = none ∧ ∀ use ∈ uses, use.Misses h.location.fid) ∨
      ∃ tried first later target, uses = tried ++ first :: later ∧
        (∀ use ∈ tried, use.Misses h.location.fid) ∧ first.Asks h.location.fid (.ok target) ∧
        (∀ use ∈ later, use.Recalls target) ∧ g.target = some target) :=
  ⟨hu.extend hk, fun _ ht => hu.recalls hk ht, hu.fetched hk⟩

/-! ## A target of three letters -/

/-- The handle of a link that has not been read. -/
def unread : Handle := .fresh ⟨1, { bits := Qid.directoryBit }⟩ ⟨2, { bits := Qid.symlinkBit }⟩ "/l"

/-- A server with one response, if it can be written. -/
def answering (b : Body) : Scripted where
  replies := [{ bytes := (Frame.encode ⟨sessionTag, b⟩).toOption.getD [] }]

/-- What goes over the wire to such a server in a new session. -/
def Call.heard (call : Call) (h : Handle) (p : Scripted) : Wire :=
  (Scripted.recorded ((call.perform.run.run h).run {}) p []).2

/-- A call with a computed reply comes before any history. -/
theorem History.computed {h f g : Handle} {uses : List Use} (hu : History f uses g) (call : Call)
    (p : Scripted) (reply : Reply)
    (hc : (Scripted.after ((call.perform.run.run h).run {}) p).1 = ((.ok reply, f), {})) :
    History h (⟨call, {}, [], reply, call.heard h p⟩ :: uses) g := by
  have hrun := Scripted.runs_recorded ((call.perform.run.run h).run {}) p []
  rw [Scripted.recorded_fst, hc] at hrun
  exact .cons hrun hu

/-- What is known of it then. -/
def known : Handle := { unread with target := some "abc" }

/-- The server fails at first, and when it does not, the buffer is too small. Then the
position is moved, which a link has no use for, and the target is read twice. -/
theorem fetched_once_of_little_room :
    ∃ uses g, unread.kind = .symlink ∧ History unread uses g ∧
      uses.map Use.reply = [.count (.error (.server .io)) [7, 7, 7, 7],
        .count (.error (.bufferTooSmall 3 1)) [7], .position (.ok ()),
        .count (.ok 3) [97, 98, 99, 7], .text (.ok "abc")] ∧
      ∃ tried first later target, uses = tried ++ first :: later ∧
        (∀ use ∈ tried, use.Misses 2) ∧ first.Asks 2 (.ok target) ∧
        (∀ use ∈ later, use.Recalls target) ∧ g.target = some target := by
  have hlast : History { known with position := 5 } _ { known with position := 5 } :=
    (History.nil _).computed .linkTarget {} (.text (.ok "abc")) (by decide +kernel)
  have hread : History { known with position := 5 } _ _ :=
    hlast.computed (.read [7, 7, 7, 7]) {} (.count (.ok 3) [97, 98, 99, 7])
      (by decide +kernel)
  have hmoved : History known _ _ :=
    hread.computed (.setPosition 5) {} (.position (.ok ())) (by decide +kernel)
  have hlittle : History unread _ _ :=
    hmoved.computed (.readLink [7]) (answering (.rreadlink "abc"))
      (.count (.error (.bufferTooSmall 3 1)) [7]) (by decide +kernel)
  have hu : History unread _ _ :=
    hlittle.computed (.readLink [7, 7, 7, 7]) (answering (.rlerror 5))
      (.count (.error (.server .io)) [7, 7, 7, 7]) (by decide +kernel)
  obtain ⟨-, -, hall⟩ := fetched_once rfl hu
  refine ⟨_, _, rfl, hu, rfl, (hall rfl).resolve_left fun hnone => ?_⟩
  cases hnone.1

end Link

end NineP
