import NineP.Proofs.Session.Refused
import NineP.Proofs.Session.Replied
import NineP.Proofs.World.Trace

/-!
# Requests within the message size

A session sends no request that is longer than its messages may be, and it refuses what
it does not send. What was refused has not been noticed by anyone: nothing was asked of
the world, and what the caller does next comes out as if it had never tried, but for the
fid that an attach has used up.

* `Session.Query.length_of_sends`, `Session.Query.sends_of_oversized`: the guard that all
  operations share;
* `Session.Query.accepted_result`: no response is taken for a mistake of the caller;
* `Session.Query.runIn_spent`: an operation does not look at the fids, unless it takes
  one;
* `Session.Round.bounded`: one operation, whatever the world does;
* `Session.Rounds.within_limit`: a row of them, and the row without those that were refused.
-/

namespace NineP

/-- No failure in a world blames the caller, except that the transport may refuse to be
directed elsewhere. -/
def Dialogue.Blameless {σ : Type} (step : σ → Call → Answer → σ → Prop) : Prop :=
  ∀ w c e w', step w c (.failed e) w' → c.directs = false → e.isMisuse = false

namespace Exchange.Always

variable {σ : Type} {step : σ → Call → Answer → σ → Prop} {w : σ}

/-- A call that fails does not blame the caller. -/
theorem accepted_call (hw : Dialogue.Blameless step) {c : Call} (hc : c.directs = false) :
    Always step (Exchange.call c) w fun r _ => Accepted r := by
  refine .call fun answer w' h => ?_
  cases answer with
  | done bytes => exact .ok bytes
  | failed e => exact .error (hw _ _ _ _ h hc)
  | stalled => exact .error rfl

theorem accepted_perform (hw : Dialogue.Blameless step) {c : Call} (hc : c.directs = false) :
    Always step (Exchange.perform c) w fun r _ => Accepted r := by
  show Always step (Exchange.call c >>= fun _ => Pure.pure ()) w _
  rw [← map_eq_pure_bind]
  exact .map ((accepted_call hw hc).mono fun r _ h => h.map _)

theorem accepted_collectFrom (hw : Dialogue.Blameless step) {fuel wanted : Nat} {acc : Bytes} :
    Always step (Exchange.collectFrom fuel wanted acc) w fun r _ => Accepted r := by
  induction fuel generalizing wanted acc w with
  | zero =>
    cases wanted with
    | zero => exact .pure (.ok _)
    | succ wanted => exact .throw (.error rfl)
  | succ fuel ih =>
    cases wanted with
    | zero => exact .pure (.ok _)
    | succ wanted =>
      have hreceive : Always step (Exchange.receive (wanted + 1)) w fun r _ => Accepted r := by
        show Always step (Exchange.call _ >>= fun bytes => Pure.pure (bytes.take (wanted + 1))) w _
        rw [← map_eq_pure_bind]
        exact .map ((accepted_call hw rfl).mono fun r _ h => h.map _)
      refine hreceive.bind (fun bytes w' _ => ?_) fun e w' h => h.of_error
      show Always step (if bytes.isEmpty then _ else _) w' _
      by_cases he : bytes.isEmpty = true
      · rw [if_pos he]
        exact .throw (.error rfl)
      · rw [if_neg he]
        exact ih

/-- An exchange that fails does not blame the caller. -/
theorem accepted (hw : Dialogue.Blameless step) {request : Bytes} {capacity : Nat}
    {limit : Option UInt64} :
    Always step (NineP.exchange request capacity limit) w fun r _ => Accepted r := by
  refine (accepted_perform hw rfl).bind (fun _ w' _ => ?_) fun e w' h => h.of_error
  refine (accepted_collectFrom hw).bind (fun field w' _ => ?_) fun e w' h => h.of_error
  refine .relies (.refuse (fun _ => .error rfl) fun _ => .refuse (fun _ => .error rfl) fun _ => ?_)
  exact (accepted_collectFrom hw).bind (fun rest w' _ => .pure (.ok _)) fun e w' h => h.of_error

end Exchange.Always

namespace Session

namespace Query

variable {α : Type}

/-- The longest request that an operation sends. -/
def limit (s : Session) : Query α → Nat
  | negotiate proposal => max s.msize.toNat proposal.toNat
  | _ => s.msize.toNat

/-- A request that is too long, or one with a text that its count does not hold. -/
def Oversized (s : Session) (op : Query α) : Prop :=
  op.limit s < 4 + (Message.mk op.tag (op.body s)).size ∨
    ∃ text ∈ (op.body s).texts, 65535 < text.utf8ByteSize

/-- Whether an operation takes a fid, which is used up even if it fails. -/
def takesFid : Query α → Bool
  | attach .. => true
  | _ => false

/-- The session after an operation that has failed. -/
def spent (s : Session) : Query α → Session
  | attach .. => { s with fids := s.fids.take.2 }
  | _ => s

variable {s : Session} {op : Query α}

theorem toNat_max_capacity (s : Session) (op : Query α) :
    (max s.msize (op.capacity s)).toNat = op.limit s := by
  cases op with
  | negotiate proposal => exact Session.toNat_max s.msize proposal
  | _ => exact congrArg UInt32.toNat (max_self s.msize)

theorem length_of_sends {request : Bytes} (h : op.sends s = .ok request) :
    request.length ≤ op.limit s := by
  obtain ⟨-, hf⟩ := sends_eq_ok.1 h
  obtain ⟨-, -, hle⟩ := requestFrame_eq_ok.1 hf
  rwa [← toNat_max_capacity]

theorem sends_of_oversized (h : op.Oversized s) :
    ∃ misuse, op.sends s = .error (.invalidParameter misuse) := by
  refine sends_of_not_sendable fun hs => ?_
  rcases h with hlong | ⟨text, hmem, hlong⟩
  · have hsize := hs.size
    rw [toNat_max_capacity] at hsize
    omega
  · have htext : text.utf8ByteSize ≤ 65535 := hs.texts text hmem
    omega

/-- What is wrong with a response is not a mistake of the caller. -/
theorem accepted_result {response : Except Error Bytes} (h : Accepted response) :
    Accepted (op.result s response) := by
  cases response with
  | error e => exact h.of_error
  | ok frame =>
    obtain ⟨r, hr⟩ := op.exists_verdict s frame
    rw [result_of_verdict hr]
    exact fun e he => (ofResponse_of_verdict (he ▸ hr)).isMisuse

/-! ## Operations that fail -/

theorem leaves_error (s : Session) (op : Query α) (e : Error) :
    op.leaves s (.error e) = op.spent s := by
  cases op <;> rfl

end Query

/-- The session with other fids. -/
def withFids (fids : FidSource) (s : Session) : Session := { s with fids }

namespace Query

variable {α σ : Type} {step : σ → Call → Answer → σ → Prop} {s : Session} {op : Query α}
  {fids : FidSource} {w : σ}

theorem sends_withFids (h : op.takesFid = false) : op.sends (withFids fids s) = op.sends s := by
  cases op with
  | attach => cases h
  | _ => rfl

theorem leaves_withFids (h : op.takesFid = false) (r : Except Error α) :
    op.leaves (withFids fids s) r = withFids fids (op.leaves s r) := by
  cases op with
  | attach => cases h
  | negotiate => cases r <;> rfl
  | _ => rfl

theorem result_withFids (h : op.takesFid = false) (response : Except Error Bytes) :
    op.result (withFids fids s) response = op.result s response := by
  have hreading : op.reading (withFids fids s) = op.reading s := by
    funext b
    cases op with
    | attach => cases h
    | _ => cases b <;> rfl
  have hjudge : op.judge (withFids fids s) = op.judge s := by
    funext frame
    by_cases hl : op.expected = .rreadlink
    · cases op with
      | readlink => rfl
      | _ => cases hl
    · rw [judge_of_ne hl, judge_of_ne hl, hreading]
  rw [result, hjudge]
  rfl

/-- An operation that takes no fid does not look at them. -/
theorem runIn_withFids (h : op.takesFid = false) :
    op.perform.runIn (withFids fids s) =
      Prod.map id (withFids fids) <$> op.perform.runIn s := by
  have hcapacity : op.capacity (withFids fids s) = op.capacity s := by
    cases op <;> rfl
  rw [op.exchanges, op.exchanges, sends_withFids h, hcapacity, map_eq_pure_bind]
  cases op.sends s with
  | error e => exact congrArg (fun t => Dialogue.done (Except.error e, t)) (leaves_withFids h _)
  | ok request =>
    show _ = (_ >>= _) >>= _
    rw [bind_assoc]
    refine congrArg (_ >>= ·) (funext fun r => ?_)
    rw [result_withFids h, leaves_withFids h]
    rfl

/-- An operation is refused and not noticed, or it sends one request and is not
refused. -/
inductive Taken (s : Session) (op : Query α) (w : σ) :
    Except Error α → Session → σ → Trace → Prop where
  | refused {misuse : Misuse} : op.sends s = .error (.invalidParameter misuse) →
    Taken s op w (.error (.invalidParameter misuse)) (op.spent s) w []
  | sent {request : Bytes} {r : Except Error α} {t : Session} {w' : σ} {calls : Trace} :
    op.sends s = .ok request → Accepted r → Trace.Conveyed request calls →
    Taken s op w r t w' calls

theorem always_taken (hw : Dialogue.Blameless step) :
    Client.Always (Dialogue.Both step Trace.Step) op.perform s (w, []) fun r t w' =>
      op.Taken s w r t w'.1 w'.2 := by
  refine Query.always (fun e he => ?_) fun request hf => ?_
  · obtain ⟨misuse, he'⟩ := sends_of_not_sendable fun hs => by
      obtain ⟨request, hf, -⟩ := sends_of_sendable hs
      cases he.symm.trans hf
    obtain rfl := Except.error.inj (he.symm.trans he')
    rw [leaves_error]
    exact .refused he
  · refine Dialogue.Always.mono (.both (Exchange.Always.accepted hw) Exchange.Always.traced)
      fun response w' ⟨ha, calls, hcalls, hconveyed⟩ => ?_
    rw [List.append_nil] at hcalls
    exact .sent hf (accepted_result ha) (hcalls ▸ hconveyed)

end Query

/-! ## Rounds -/

/-- What a caller may do with a session. -/
inductive Act : Type → Type 1 where
  | query {α : Type} (op : Query α) : Act α
  | freshFid : Act UInt32
  | shutdown : Act Unit

namespace Act

variable {α : Type}

def perform : Act α → Client α
  | query op => op.perform
  | freshFid => Client.freshFid
  | shutdown => Session.shutdown

/-- Whether a request may be sent. Only the operations send any. -/
def Allows (s : Session) (request : Bytes) : Act α → Prop
  | query op => request.length ≤ op.limit s
  | _ => False

/-- Whether a request would have to be sent that may not. -/
def Oversized (s : Session) : Act α → Prop
  | query op => op.Oversized s
  | _ => False

/-- Whether a fid is taken. -/
def takesFid : Act α → Bool
  | query op => op.takesFid
  | freshFid => true
  | shutdown => false

theorem runIn_withFids {act : Act α} (h : act.takesFid = false) {fids : FidSource} {s : Session} :
    act.perform.runIn (withFids fids s) =
      Prod.map id (withFids fids) <$> act.perform.runIn s := by
  cases act with
  | query op => exact Query.runIn_withFids h
  | freshFid => cases h
  | shutdown =>
    refine congrArg (Dialogue.ask Call.close) (funext fun answer => ?_)
    cases answer <;> rfl

end Act

variable {σ : Type} {step : σ → Call → Answer → σ → Prop}

/-- One thing that a caller has done with a session, with the world and the session
before and after it, and what was asked of the world. -/
structure Round (σ : Type) : Type 1 where
  {α : Type}
  act : Act α
  before : σ × Session
  calls : Trace
  result : Except Error α
  after : σ × Session

namespace Round

/-- The world may let it go so. -/
def Runs (step : σ → Call → Answer → σ → Prop) (round : Round σ) : Prop :=
  (round.act.perform.runIn round.before.2).Runs (Dialogue.Both step Trace.Step)
    (round.before.1, []) (round.result, round.after.2) (round.after.1, round.calls)

/-- Whether the caller was told of a mistake. -/
def refused (round : Round σ) : Bool :=
  match round.result with
  | .ok _ => false
  | .error e => e.isMisuse

/-- What is left when a round is taken back: of an attach, the fid. -/
def remains (round : Round σ) : List (Round σ) :=
  if round.act.takesFid then
    [{ act := .freshFid
       before := round.before
       calls := []
       result := .ok round.before.2.fids.take.1
       after := round.after }]
  else []

/-- Nobody but the source of fids has noticed a round: nothing was asked of the world,
and what takes no fid comes out next as it would have come out before. -/
structure Unnoticed (round : Round σ) : Prop where
  calls : round.calls = []
  world : round.after.1 = round.before.1
  msize : round.after.2.msize = round.before.2.msize
  version : round.after.2.version = round.before.2.version
  session : round.after.2 = if round.act.takesFid
    then withFids round.before.2.fids.take.2 round.before.2 else round.before.2
  next {β : Type} (act : Act β) : act.takesFid = false →
    act.perform.runIn round.after.2 =
      Prod.map id (withFids round.after.2.fids) <$> act.perform.runIn round.before.2

/-- What is sent is within its limit, what is not within it is refused, and what is
refused is not noticed. -/
structure Bounded (round : Round σ) : Prop where
  sent : ∀ request ∈ Trace.requests round.calls, round.act.Allows round.before.2 request
  refuses : round.act.Oversized round.before.2 → round.refused = true
  unnoticed : round.refused = true → round.Unnoticed

theorem not_refused {round : Round σ} (h : Accepted round.result) : round.refused = false := by
  rw [refused]
  split
  · rfl
  · rename_i e he
    exact h e he

theorem unnoticed_of_fids {round : Round σ} (hc : round.calls = [])
    (hw : round.after.1 = round.before.1)
    (hs : round.after.2 = if round.act.takesFid
      then withFids round.before.2.fids.take.2 round.before.2 else round.before.2) :
    round.Unnoticed := by
  have hfids : round.after.2 = withFids round.after.2.fids round.before.2 := by
    rw [hs]
    split <;> rfl
  refine ⟨hc, hw, ?_, ?_, hs, fun act ht => ?_⟩
  · rw [hfids]
    rfl
  · rw [hfids]
    rfl
  · rw [← Act.runIn_withFids ht, ← hfids]

/-- A round that is not refused only has to keep to what it may send. -/
theorem bounded_of_accepted {round : Round σ} (ha : Accepted round.result)
    (hs : ∀ request ∈ Trace.requests round.calls, round.act.Allows round.before.2 request)
    (ho : ¬ round.act.Oversized round.before.2) : round.Bounded where
  sent := hs
  refuses h := absurd h ho
  unnoticed h := by cases (not_refused ha).symm.trans h

theorem bounded_of_query (hw : Dialogue.Blameless step) {α : Type} {op : Query α}
    {before after : σ × Session} {calls : Trace} {r : Except Error α}
    (h : Round.Runs step ⟨.query op, before, calls, r, after⟩) :
    Round.Bounded ⟨.query op, before, calls, r, after⟩ := by
  obtain ⟨v, t⟩ := after
  have htaken := Query.always_taken hw _ _ h
  simp only at htaken
  cases htaken with
  | refused hf =>
    refine ⟨fun _ hm => (by cases hm), fun _ => rfl, fun _ => unnoticed_of_fids rfl rfl ?_⟩
    cases op <;> rfl
  | @sent request _ _ _ _ hf ha hc =>
    refine bounded_of_accepted ha (fun request' hm => ?_) fun ho => ?_
    · rw [hc.requests] at hm
      rw [List.mem_singleton.1 hm]
      exact Query.length_of_sends hf
    · obtain ⟨misuse, he⟩ := Query.sends_of_oversized ho
      cases hf.symm.trans he

/-- Shutting the stream down sends no request, and does not blame the caller. -/
theorem always_shutdown (hw : Dialogue.Blameless step) {s : Session} {w : σ} :
    Client.Always (Dialogue.Both step Trace.Step) shutdown s (w, []) fun r _ w' =>
      Accepted r ∧ Trace.requests w'.2 = [] := by
  refine .ofExchange (.perform fun answer w' h => ?_)
  obtain ⟨hstep, htrace⟩ := h
  refine ⟨?_, by rw [htrace]; rfl⟩
  cases answer with
  | done => exact .ok _
  | failed e => exact .error (hw _ _ _ _ hstep rfl)
  | stalled => exact .error rfl

/-- Whatever the world does in a round, as long as no failure of the transport blames the
caller. -/
theorem bounded (hw : Dialogue.Blameless step) {round : Round σ} (h : round.Runs step) :
    round.Bounded := by
  obtain ⟨act, before, calls, r, after⟩ := round
  cases act with
  | query op => exact bounded_of_query hw h
  | freshFid =>
    obtain ⟨hr, hlast⟩ := Dialogue.runs_done.1 h
    have hok : r = .ok before.2.fids.take.1 := (Prod.mk.inj hr).1
    have hnone : calls = [] := (Prod.mk.inj hlast).2
    subst hok hnone
    exact bounded_of_accepted (.ok _) (fun _ hm => by cases hm) id
  | shutdown =>
    obtain ⟨ha, hsent⟩ := always_shutdown hw _ _ h
    have hsent : Trace.requests calls = [] := hsent
    exact bounded_of_accepted ha (fun _ hm => by rw [hsent] at hm; cases hm) id

/-- A refused operation may be left out. -/
theorem remains_of_unnoticed {round : Round σ} (h : round.Unnoticed) :
    (round.remains = [] ∧ round.after = round.before) ∨
      ∃ fid : Round σ, round.remains = [fid] ∧ fid.Runs step ∧ fid.before = round.before ∧
        fid.after = round.after := by
  rw [remains]
  by_cases ht : round.act.takesFid = true
  · rw [if_pos ht]
    refine .inr ⟨_, rfl, ?_, rfl, rfl⟩
    have hsession := h.session
    rw [if_pos ht] at hsession
    refine Dialogue.runs_done.2 ⟨?_, ?_⟩
    · rw [hsession]
      rfl
    · rw [h.world]
  · rw [if_neg ht]
    have hsession := h.session
    rw [if_neg ht] at hsession
    exact .inl ⟨rfl, Prod.ext h.world hsession⟩

end Round

/-- Rounds one after the other. -/
inductive Rounds (step : σ → Call → Answer → σ → Prop) :
    σ × Session → List (Round σ) → σ × Session → Prop where
  | nil (x : σ × Session) : Rounds step x [] x
  | cons {round : Round σ} {rounds : List (Round σ)} {last : σ × Session} :
    round.Runs step → Rounds step round.after rounds last →
    Rounds step round.before (round :: rounds) last

/-- What is left of a row of rounds without those that were refused. -/
def Rounds.kept (rounds : List (Round σ)) : List (Round σ) :=
  rounds.flatMap fun round => if round.refused then round.remains else [round]

namespace Rounds

variable {first last : σ × Session} {rounds : List (Round σ)}

theorem runs (h : Rounds step first rounds last) : ∀ round ∈ rounds, round.Runs step := by
  induction h with
  | nil => exact fun _ hm => by cases hm
  | cons hrun _ ih => exact List.forall_mem_cons.2 ⟨hrun, ih⟩

theorem kept_of_refused {round : Round σ} (h : round.refused = true) :
    kept (round :: rounds) = round.remains ++ kept rounds := by
  rw [kept, List.flatMap_cons, if_pos h]
  rfl

theorem kept_of_not_refused {round : Round σ} (h : round.refused = false) :
    kept (round :: rounds) = round :: kept rounds := by
  rw [kept, List.flatMap_cons, h]
  rfl

/-- Leaving out the refused operations leaves the rest as it was. -/
theorem without_refused (hb : ∀ round ∈ rounds, round.Bounded)
    (h : Rounds step first rounds last) : Rounds step first (kept rounds) last := by
  induction h with
  | nil x => exact .nil x
  | @cons round rounds last hrun _ ih =>
    obtain ⟨hround, hrounds⟩ := List.forall_mem_cons.1 hb
    have hrest := ih hrounds
    cases hr : round.refused with
    | false =>
      rw [kept_of_not_refused hr]
      exact .cons hrun hrest
    | true =>
      rw [kept_of_refused hr]
      obtain ⟨hnone, hsame⟩ | ⟨fid, hfid, hruns, hbefore, hafter⟩ :=
        @Round.remains_of_unnoticed _ step _ (hround.unnoticed hr)
      · rw [hnone, ← hsame]
        exact hrest
      · rw [hfid, ← hbefore]
        exact .cons hruns (hafter ▸ hrest)

/-- Whatever a caller does with a session, from whatever state, and whatever the world
does, as long as no failure of the transport blames the caller: a request is sent only
if it is no longer than the message size, or than the larger of that and the proposal for
the handshake; an operation whose request is longer, or holds a text of more than 65535
bytes, is refused; and a refused operation has asked nothing of the world, which stands
where it stood, has left the session as it was but for the fid that an attach takes, and
makes no difference to what is done next. So the refused operations may be left out, of
each attach the fid that it took aside, and the world and the session come out the same
by the same rounds. -/
theorem within_limit (hw : Dialogue.Blameless step) (h : Rounds step first rounds last) :
    (∀ round ∈ rounds, round.Bounded) ∧ Rounds step first (kept rounds) last := by
  have hall : ∀ round ∈ rounds, round.Bounded :=
    fun round hm => Round.bounded hw (h.runs round hm)
  exact ⟨hall, without_refused hall h⟩

end Rounds

/-! ## An attach with a long name -/

theorem blameless_wire : Dialogue.Blameless Wire.Step := by
  intro log c e log' h hc
  obtain ⟨fault, rfl⟩ := h.1 e rfl hc
  rfl

/-- Any call may be done, and is then written down. -/
theorem step_done (log : Wire) (trace : Trace) (c : Call) (bytes : Bytes) :
    Dialogue.Both Wire.Step Trace.Step (log, trace) c (.done bytes)
      (log.record c (.done bytes), (c, .done bytes) :: trace) :=
  ⟨.done log c bytes, .given trace c (.done bytes)⟩

/-- A name that the smallest message size has no room for. -/
def lengthyName : String := String.ofList (List.replicate 240 'n')

/-- An attach that is refused. -/
def refusedAttach : Round Wire where
  act := .query (.attach lengthyName "")
  before := ([], agreed256)
  calls := []
  result := .error (.invalidParameter (.requestTooLong .tattach 259 256))
  after := ([], withFids agreed256.fids.take.2 agreed256)

/-- What is left of it. -/
def takenFid : Round Wire where
  act := .freshFid
  before := ([], agreed256)
  calls := []
  result := .ok 1
  after := refusedAttach.after

/-- A fid that is given back afterwards. -/
def clunkedAfter : Round Wire where
  act := .query (.clunk 7)
  before := refusedAttach.after
  calls := [(.receive 3, .done [121, 1, 0]), (.receive 4, .done [7, 0, 0, 0]),
    (.transmit [11, 0, 0, 0, 120, 1, 0, 7, 0, 0, 0] none, .done [])]
  result := .ok ()
  after := ([([11, 0, 0, 0, 120, 1, 0, 7, 0, 0, 0], [7, 0, 0, 0, 121, 1, 0])],
    withFids agreed256.fids.take.2 agreed256)

theorem rounds_refusedAttach :
    Rounds Wire.Step ([], agreed256) [refusedAttach, clunkedAfter] clunkedAfter.after := by
  have hrefused : refusedAttach.Runs Wire.Step := by
    have hsends : (Query.attach lengthyName "").sends agreed256 =
        .error (.invalidParameter (.requestTooLong .tattach 259 256)) := by decide +kernel
    show ((Query.attach lengthyName "").perform.runIn agreed256).Runs _ _ _ _
    rw [Query.exchanges, hsends]
    exact .done _ _
  have hclunked : clunkedAfter.Runs Wire.Step :=
    .ask (step_done _ _ _ []) (.ask (step_done _ _ _ [7, 0, 0, 0])
      (.ask (step_done _ _ _ [121, 1, 0]) (.done _ _)))
  exact .cons hrefused (.cons hclunked (.nil _))

/-- The attach has been noticed by nobody, and without it the clunk goes as it went. -/
theorem within_limit_refused_attach :
    Dialogue.Blameless Wire.Step ∧
      Rounds Wire.Step ([], agreed256) [refusedAttach, clunkedAfter] clunkedAfter.after ∧
      refusedAttach.Unnoticed ∧
      Rounds Wire.Step ([], agreed256) [takenFid, clunkedAfter] clunkedAfter.after := by
  obtain ⟨hbounded, hkept⟩ := Rounds.within_limit blameless_wire rounds_refusedAttach
  have hrefused : refusedAttach.Bounded := hbounded _ List.mem_cons_self
  exact ⟨blameless_wire, rounds_refusedAttach, hrefused.unnoticed rfl, hkept⟩

end Session

end NineP
