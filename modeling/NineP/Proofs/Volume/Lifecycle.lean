import NineP.Proofs.Session.Meaning
import NineP.Proofs.World.Trace
import NineP.Volume

/-!
# From mounting to unmounting

A mount is a row of steps, each of which may fail. The stream is closed once if it
was connected, whichever step fails, and again an unmount closes it whatever comes of
giving back the root's fid:

* `Volume.Stage.adds`: what a step asks of the world;
* `Volume.Stage.Passed.known`: what the steps that have succeeded have asked of it;
* `Volume.always_mount`: a mount fails with its first step that does;
* `Volume.lifecycle`: so the stream is closed once or was never connected.
-/

namespace NineP

/-- Whether a call shuts the stream down. -/
def Call.isClose : Call → Bool
  | .close => true
  | _ => false

namespace Trace

/-- How often the stream was shut down. -/
def closes (trace : Trace) : Nat := trace.countP fun entry => entry.1.isClose

/-- Whether the stream has been connected. -/
def connected (trace : Trace) : Bool :=
  trace.any fun
    | (.connect, .done _) => true
    | _ => false

/-- The messages that were sent, in their order, as they are read. -/
def messages (trace : Trace) : List (Except Fault Message) := trace.requests.map Frame.decode

end Trace

namespace Volume

/-- Mount a volume, and unmount it if that succeeds. -/
def life (config : Config) : Exchange (Except Error Unit) := do
  let (v, session) ← mount config
  let (r, _) ← v.unmount.runIn session
  pure r

/-- The fid that is attached. -/
def rootFid : UInt32 := ({} : FidSource).take.1

/-- The steps of a mount. -/
inductive Stage where
  | validate
  | configure
  | connect
  | negotiate
  | attach
  deriving DecidableEq, Repr

namespace Stage

/-- All steps, in their order. -/
def all : List Stage := [.validate, .configure, .connect, .negotiate, .attach]

/-- The steps before one. -/
def before (stage : Stage) : List Stage := all.takeWhile (· ≠ stage)

/-- A step on its own. -/
def perform (config : Config) : Stage → Client Unit
  | .validate => liftM config.validate
  | .configure => Client.ofExchange (Exchange.perform (.configure config.endpoints))
  | .connect => Client.ofExchange (Exchange.perform .connect)
  | .negotiate => (fun _ => ()) <$> Session.negotiate config.msize
  | .attach => (fun _ => ()) <$> Session.attach config.uname config.aname

/-- The messages that a step sends. -/
def messages (config : Config) : Stage → List Message
  | .negotiate => [⟨noTag, .tversion config.msize protocolVersion⟩]
  | .attach => [⟨sessionTag, .tattach rootFid noFid config.uname config.aname⟩]
  | _ => []

/-- Some steps have succeeded, one after the other from a new session on. -/
inductive Passed (config : Config) : List Stage → Session → Trace → Prop where
  | start : Passed config [] { timeout := config.timeout } []
  | step {stage : Stage} {s t : Session} {earlier later : Trace} :
    Passed config stage.before s earlier →
    ((stage.perform config).runIn s).Runs Trace.Step earlier (.ok (), t) later →
    Passed config (stage.before ++ [stage]) t later

/-- The steps before one have succeeded, and that one fails with an error. Then the
stream is shut down if it is connected, whatever comes of it. -/
def FailedAt (config : Config) (stage : Stage) (e : Error) (trace : Trace) : Prop :=
  ∃ s t earlier reached answer, Passed config stage.before s earlier ∧
    ((stage.perform config).runIn s).Runs Trace.Step earlier (.error e, t) reached ∧
    trace = if .connect ∈ stage.before then (.close, answer) :: reached else reached

variable {config : Config} {stage : Stage} {s t : Session} {earlier trace : Trace}

/-- What a step with its result asks of the world. Only an attach may ask for nothing
where it would send something, if it fails. -/
structure Adds (config : Config) (stage : Stage) (r : Except Error Unit) (calls : Trace) :
    Prop where
  closes : calls.closes = 0
  connected : calls.connected = decide (stage = .connect ∧ r = .ok ())
  sends : calls.messages = (stage.messages config).map .ok ∨
    stage = .attach ∧ r ≠ .ok () ∧ calls.messages = []

/-- What is known of the session behind some steps. -/
structure Known (config : Config) (stages : List Stage) (s : Session) : Prop where
  valid : stages ≠ [] → config.validate = .ok ()
  least : minMsize ≤ s.msize
  fids : .attach ∉ stages → s.fids = {}

end Stage

end Volume

namespace Trace

theorem closes_append (later earlier : Trace) :
    closes (later ++ earlier) = later.closes + earlier.closes :=
  List.countP_append

theorem connected_append (later earlier : Trace) :
    connected (later ++ earlier) = (later.connected || earlier.connected) :=
  List.any_append

theorem messages_append (later earlier : Trace) :
    messages (later ++ earlier) = earlier.messages ++ later.messages := by
  rw [messages, requests_append, List.map_append]
  rfl

/-- Shutting the stream down is neither connecting it nor sending. -/
theorem close_cons (answer : Answer) (trace : Trace) :
    closes ((.close, answer) :: trace) = trace.closes + 1 ∧
      connected ((.close, answer) :: trace) = trace.connected ∧
      messages ((.close, answer) :: trace) = trace.messages := by
  refine ⟨List.countP_cons_of_pos rfl, rfl, ?_⟩
  rw [← List.singleton_append, messages_append]
  exact List.append_nil _

/-- Calls that move bytes neither connect the stream nor shut it down. -/
theorem still_of_transfers {calls : Trace} (h : ∀ entry ∈ calls, entry.1.isTransfer = true) :
    calls.closes = 0 ∧ calls.connected = false := by
  constructor
  · refine List.countP_eq_zero.2 fun entry he hclose => ?_
    obtain ⟨c, answer⟩ := entry
    have htransfer := h _ he
    cases c with
    | close => cases htransfer
    | _ => cases hclose
  · refine List.any_eq_false.2 fun entry he hconnect => ?_
    obtain ⟨c, answer⟩ := entry
    have htransfer := h _ he
    cases c with
    | connect => cases htransfer
    | _ => cases hconnect

end Trace

namespace Session.Query

variable {α : Type} {s : Session} {op : Query α} {r : Except Error α} {calls : Trace}

/-- What an operation sends is read as its request. -/
theorem Traced.messages (h : op.Traced s r calls) (hc : (op.body s).CountsHold) :
    (∃ e, op.sends s = .error e ∧ r = .error e ∧ calls.messages = []) ∨
      calls.messages = [.ok ⟨op.tag, (op.body s).known⟩] := by
  cases h with
  | unsent hf => exact .inl ⟨_, hf, rfl, rfl⟩
  | @sent request _ _ _ hf hcalls _ =>
    have hd := decode_of_requestFrame (sends_eq_ok.1 hf).2 hc (op.payloadFits_body s)
    right
    rw [Trace.messages, hcalls.requests, List.map_singleton, hd]

/-- A frame of the expected tag and type is read as its body. -/
theorem verdict_of_decode {frame : Bytes} {m : Message} (hl : op.expected ≠ .rreadlink)
    (hd : Frame.decode frame = .ok m) (ht : m.tag = op.tag) (he : m.body.type = op.expected) :
    op.verdict s frame = op.reading s m.body := by
  obtain ⟨-, -, htype, htag, -⟩ := Frame.header_of_decode hd
  rw [verdict, if_neg (not_not.2 (htag.trans ht)), if_pos (htype.trans (congrArg _ he)),
    judge_of_ne hl, decoded, hd]

end Session.Query

namespace Volume.Stage

variable {config : Config} {stage : Stage} {s t : Session} {earlier trace : Trace}

/-- What a step asks of the world, and what is known behind it if it succeeds. -/
def Stepped (config : Config) (stage : Stage) (earlier : Trace) (r : Except Error Unit)
    (t : Session) (later : Trace) : Prop :=
  (∃ calls, later = calls ++ earlier ∧ Adds config stage r calls) ∧
    (r = .ok () → Known config (stage.before ++ [stage]) t)

/-- A step that is judged at once. -/
theorem stepped_nil {r : Except Error Unit} (hs : stage.messages config = [])
    (hc : stage ≠ .connect) (hk : r = .ok () → Known config (stage.before ++ [stage]) t) :
    Stepped config stage earlier r t earlier := by
  refine ⟨⟨[], rfl, rfl, ?_, .inl ?_⟩, hk⟩
  · rw [decide_eq_false fun h => hc h.1]
    rfl
  · rw [hs]
    rfl

theorem adds_negotiate (hk : Known config (before .negotiate) s) :
    Client.Always Trace.Step (perform config .negotiate) s earlier
      (Stepped config .negotiate earlier) := by
  have hvalid := hk.valid (by decide)
  have hleast : minMsize ≤ config.msize := (Config.validate_eq_ok_iff.1 hvalid).1
  refine .map ((Session.Query.always_traced (.negotiate config.msize)).mono ?_)
  rintro r t later ⟨rfl, calls, rfl, h⟩
  obtain ⟨hcloses, hconnected⟩ := Trace.still_of_transfers h.transfers
  refine ⟨⟨calls, rfl, hcloses, ?_, .inl ?_⟩, fun hr => ?_⟩
  · rw [hconnected]
    rfl
  · obtain ⟨request, hf, -⟩ := Session.Query.sends_of_sendable
      (Session.Query.sendable_negotiate hleast : (Session.Query.negotiate _).Sendable s)
    obtain ⟨e, hunsent, -⟩ | hsent := h.messages trivial
    · cases hf.symm.trans hunsent
    · exact hsent
  · cases r with
    | error e => cases hr
    | ok agreed =>
      refine ⟨fun _ => hvalid, ?_, fun _ => hk.fids (by decide)⟩
      cases h with
      | sent _ _ hresult => exact Session.Query.least_of_negotiate hleast hresult.symm

theorem adds_attach (hk : Known config (before .attach) s) :
    Client.Always Trace.Step (perform config .attach) s earlier
      (Stepped config .attach earlier) := by
  refine .map ((Session.Query.always_traced (.attach config.uname config.aname)).mono ?_)
  rintro r t later ⟨rfl, calls, rfl, h⟩
  obtain ⟨hcloses, hconnected⟩ := Trace.still_of_transfers h.transfers
  refine ⟨⟨calls, rfl, hcloses, ?_, ?_⟩, fun _ => ?_⟩
  · rw [hconnected]
    rfl
  · obtain ⟨e, -, rfl, hnone⟩ | hsent := h.messages trivial
    · exact .inr ⟨rfl, (fun h => by cases h), hnone⟩
    · left
      rw [hsent]
      show [Except.ok (Message.mk sessionTag (.tattach s.fids.take.1 _ _ _))] = _
      rw [hk.fids (by decide)]
      rfl
  · exact ⟨fun _ => hk.valid (by decide), hk.least, fun h => absurd (by decide) h⟩

/-- A call that moves no bytes. -/
theorem stepped_perform {c : Call} (hs : stage.messages config = [])
    (hp : stage.perform config = Client.ofExchange (Exchange.perform c))
    (hadds : ∀ answer, Trace.closes [(c, answer)] = 0 ∧ Trace.requests [(c, answer)] = [] ∧
      Trace.connected [(c, answer)] =
        decide (stage = .connect ∧ (fun _ => ()) <$> Exchange.ofAnswer answer = .ok ()))
    (hk : Known config (stage.before ++ [stage]) s) :
    Client.Always Trace.Step (stage.perform config) s earlier (Stepped config stage earlier) := by
  rw [hp]
  refine .ofExchange (.perform fun answer later h => ⟨⟨[(c, answer)], h, ?_⟩, fun _ => hk⟩)
  obtain ⟨hcloses, hrequests, hconnected⟩ := hadds answer
  refine ⟨hcloses, hconnected, .inl ?_⟩
  rw [hs, Trace.messages, hrequests]
  rfl

/-- What a step does is known from what is known before it. -/
theorem adds (hk : Known config stage.before s) :
    Client.Always Trace.Step (stage.perform config) s earlier (Stepped config stage earlier) := by
  cases stage with
  | validate =>
    refine .lift (stepped_nil rfl (fun h => by cases h) fun h => ?_)
    exact ⟨fun _ => h, hk.least, fun _ => hk.fids (by decide)⟩
  | configure =>
    refine stepped_perform rfl rfl (fun answer => ⟨rfl, rfl, ?_⟩) ?_
    · rw [decide_eq_false fun h => by cases h.1]
      rfl
    · exact ⟨fun _ => hk.valid (by decide), hk.least, fun _ => hk.fids (by decide)⟩
  | connect =>
    refine stepped_perform rfl rfl (fun answer => ⟨rfl, rfl, ?_⟩) ?_
    · cases answer <;> rfl
    · exact ⟨fun _ => hk.valid (by decide), hk.least, fun _ => hk.fids (by decide)⟩
  | negotiate => exact adds_negotiate hk
  | attach => exact adds_attach hk

/-- What the steps that have succeeded have asked of the world, and what is known
behind them. -/
theorem Passed.known {stages : List Stage} (h : Passed config stages s trace) :
    Known config stages s ∧ trace.closes = 0 ∧ trace.connected = decide (.connect ∈ stages) ∧
      trace.messages = (stages.flatMap (messages config)).map .ok := by
  induction h with
  | start =>
    refine ⟨⟨fun h => absurd rfl h, ?_, fun _ => rfl⟩, rfl, rfl, rfl⟩
    show (256 : UInt32) ≤ 8192
    decide
  | @step stage s t earlier later _ hrun ih =>
    obtain ⟨hk, hcloses, hconnected, hmessages⟩ := ih
    obtain ⟨⟨calls, rfl, hadds⟩, hknown⟩ := adds hk _ _ hrun
    refine ⟨hknown rfl, ?_, ?_, ?_⟩
    · rw [Trace.closes_append, hadds.closes, hcloses]
    · rw [Trace.connected_append, hadds.connected, hconnected, ← Bool.decide_or]
      refine decide_eq_decide.2 ?_
      rw [List.mem_append, List.mem_singleton, or_comm, eq_comm]
      exact or_congr_right (and_iff_left rfl)
    · obtain hsends | ⟨-, hr, -⟩ := hadds.sends
      · rw [Trace.messages_append, hmessages, hsends, ← List.map_append, List.flatMap_append,
          List.flatMap_singleton]
      · exact absurd rfl hr

end Volume.Stage

namespace Client

variable {σ α : Type} {step : σ → Call → Answer → σ → Prop} {p q : σ} {s t : Session}

theorem runs_ofExchange {x : Exchange α} {r : Except Error α} (h : x.run.Runs step p r q) :
    ((ofExchange x).runIn s).Runs step p (r, s) q := by
  show Dialogue.Runs step p (x.run >>= fun r => .done (r, s)) _ _
  exact Dialogue.runs_bind.2 ⟨r, q, h, .done _ _⟩

theorem runs_map {β : Type} {x : Client α} {f : α → β} {r : Except Error α}
    (h : (x.runIn s).Runs step p (r, t) q) : ((f <$> x).runIn s).Runs step p (f <$> r, t) q := by
  let Q (r : Except Error β) (t : Session) (q : σ) : Prop :=
    ((f <$> x).runIn s).Runs step p (r, t) q
  have hruns : Always step (f <$> x) s p Q := fun _ _ hrun => hrun
  exact hruns.of_map _ _ h

end Client

namespace Volume

open Stage

variable {config : Config}

/-- Either all steps of a mount have succeeded, or it fails with the first one that
does, and that stands behind all calls but to shut the stream down. -/
def Mounted (config : Config) (r : Except Error (Volume × Session)) (trace : Trace) : Prop :=
  match r with
  | .ok (v, s) => v.root.fid = rootFid ∧ Passed config all s trace
  | .error e => ∃ stage, FailedAt config stage e trace

/-- A handshake and an attach. -/
theorem always_attach {s : Session} {earlier : Trace}
    (hs : Passed config (before .negotiate) s earlier) :
    Client.Always Trace.Step (attach config) s earlier fun r t trace =>
      match r with
      | .ok root => root.fid = rootFid ∧ Passed config all t trace
      | .error e => ∃ stage s' earlier', .connect ∈ before stage ∧
          Passed config stage.before s' earlier' ∧
          ((stage.perform config).runIn s').Runs Trace.Step earlier' (.error e, t) trace := by
  have hnegotiate : Client.Always Trace.Step (Session.negotiate config.msize) s earlier
      fun r t trace => ((perform config .negotiate).runIn s).Runs Trace.Step earlier
        ((fun _ => ()) <$> r, t) trace := fun _ _ h => Client.runs_map h
  refine hnegotiate.bind (fun _ t trace h => ?_) fun e t trace h => ?_
  · have ht : Passed config (before .attach) t trace := .step hs h
    have hattach : Client.Always Trace.Step (Session.attach config.uname config.aname) t trace
        fun r u reached => ((perform config .attach).runIn t).Runs Trace.Step trace
          ((fun _ => ()) <$> r, u) reached ∧ ∀ fid qid, r = .ok (fid, qid) → fid = rootFid := by
      refine fun r reached hrun => ⟨Client.runs_map hrun, fun fid qid hr => ?_⟩
      obtain ⟨-, calls, -, htraced⟩ :=
        Session.Query.always_traced (.attach config.uname config.aname) _ _ hrun
      rw [hr] at htraced
      cases htraced with
      | sent _ _ hresult =>
        rw [Session.Query.fid_of_attach hresult.symm, ht.known.1.fids (by decide)]
        rfl
    refine hattach.bind (fun (fid, qid) u reached h => ?_) fun e u reached h => ?_
    · exact .pure ⟨h.2 fid qid rfl, .step ht h.1⟩
    · exact ⟨.attach, t, trace, by decide, ht, h.1⟩
  · exact ⟨.negotiate, s, earlier, by decide, hs, h⟩

theorem always_mount (config : Config) :
    (mount config).Always Trace.Step [] (Mounted config) := by
  have early {stage : Stage} {s t : Session} {e : Error} {earlier reached : Trace}
      (hp : Passed config stage.before s earlier) (hc : .connect ∉ stage.before)
      (hrun : ((stage.perform config).runIn s).Runs Trace.Step earlier (.error e, t) reached) :
      Mounted config (.error e) reached :=
    ⟨stage, s, t, earlier, reached, .stalled, hp, hrun, (if_neg hc).symm⟩
  have one (stage : Stage) {c : Call} {s : Session} {earlier : Trace}
      (hc : stage.perform config = Client.ofExchange (Exchange.perform c)) :
      Exchange.Always Trace.Step (Exchange.perform c) earlier fun r trace =>
        ((stage.perform config).runIn s).Runs Trace.Step earlier (r, s) trace :=
    fun _ _ h => hc ▸ Client.runs_ofExchange h
  rw [mount]
  have hvalidate : ((perform config .validate).runIn { timeout := config.timeout }).Runs Trace.Step
      [] (config.validate, { timeout := config.timeout }) [] := .done _ _
  cases hv : config.validate with
  | error e =>
    rw [hv] at hvalidate
    exact .lift_bind_error rfl (early .start (by decide) hvalidate)
  | ok u =>
    rw [hv] at hvalidate
    have hvalidated : Passed config (before .configure) _ [] := .step .start hvalidate
    refine .lift_bind_ok rfl ((one .configure rfl).bind (fun _ trace h => ?_)
      fun e trace h => early hvalidated (by decide) h)
    have hconfigured : Passed config (before .connect) _ trace := .step hvalidated h
    refine (one .connect rfl).bind (fun _ trace h => ?_)
      fun e trace h => early hconfigured (by decide) h
    have hconnected : Passed config (before .negotiate) _ trace := .step hconfigured h
    refine .dialogue_bind (always_attach hconnected) fun (attached, session) trace h => ?_
    cases attached with
    | ok root => exact .pure h
    | error e =>
      obtain ⟨stage, s, earlier, hc, hp, hrun⟩ := h
      have hclose : Exchange.Always Trace.Step (Exchange.perform .close) trace fun _ trace' =>
          ∃ answer, trace' = (.close, answer) :: trace := .perform fun answer _ h => ⟨answer, h⟩
      refine .dialogue_bind hclose fun _ trace' h => .throw ?_
      obtain ⟨answer, rfl⟩ := h
      exact ⟨stage, s, session, earlier, trace, answer, hp, hrun, (if_pos hc).symm⟩

/-- An unmount gives the root's fid back and shuts the stream down whatever comes of
that. The failure to shut it down is reported first. -/
def Unmounted (s : Session) (earlier : Trace) (r : Except Error Unit) (trace : Trace) : Prop :=
  ∃ clunked t reached answer,
    ((Session.clunk rootFid).runIn s).Runs Trace.Step earlier (clunked, t) reached ∧
    trace = (.close, answer) :: reached ∧ r = (Exchange.ofAnswer answer >>= fun _ => clunked)

theorem always_unmount {v : Volume} {s : Session} {earlier : Trace} (hv : v.root.fid = rootFid) :
    Client.Always Trace.Step v.unmount s earlier fun r _ trace => Unmounted s earlier r trace := by
  have hclunk : Client.Always Trace.Step (Session.clunk v.root.fid) s earlier fun r t reached =>
      ((Session.clunk rootFid).runIn s).Runs Trace.Step earlier (r, t) reached :=
    fun _ _ h => hv ▸ h
  refine .bind_of_yields (.attempt hclunk) fun clunked t reached h => ?_
  have hclose : Client.Always Trace.Step Session.shutdown t reached fun r _ trace =>
      ∃ answer, trace = (.close, answer) :: reached ∧
        r = (fun _ => ()) <$> Exchange.ofAnswer answer :=
    .ofExchange (.perform fun answer _ h => ⟨answer, h, rfl⟩)
  refine hclose.bind (fun _ u trace h' => .lift ?_) fun e u trace h' => ?_
  all_goals
    obtain ⟨answer, rfl, hr⟩ := h'
    refine ⟨clunked, t, reached, answer, h, rfl, ?_⟩
  · cases ha : Exchange.ofAnswer answer with
    | ok bytes => rfl
    | error e =>
      rw [ha] at hr
      cases hr
  · cases ha : Exchange.ofAnswer answer with
    | ok bytes =>
      rw [ha] at hr
      cases hr
    | error e' =>
      rw [ha] at hr
      exact congrArg _ (Except.error.inj hr)

/-- What a mount, and an unmount behind it, come to. -/
theorem always_life (config : Config) :
    (life config).Always Trace.Step [] fun r trace =>
      match r with
      | .ok unmounted => ∃ s earlier, Passed config all s earlier ∧
          Unmounted s earlier unmounted trace
      | .error e => ∃ stage, FailedAt config stage e trace := by
  refine (always_mount config).bind (fun (v, s) earlier h => ?_) fun e trace h => h
  exact .dialogue_bind (always_unmount h.1) fun (r, _) trace hr => .pure ⟨s, earlier, h.2, hr⟩

namespace Stage

variable {stage : Stage} {e : Error} {trace : Trace}

/-- The calls of a mount that fails. -/
theorem FailedAt.calls (h : FailedAt config stage e trace) :
    trace.closes = (if trace.connected then 1 else 0) ∧
      ∃ sent, trace.messages = (stage.before.flatMap (messages config) ++ sent).map .ok ∧
        (sent = stage.messages config ∨ stage = .attach ∧ sent = []) := by
  obtain ⟨s, t, earlier, reached, answer, hp, hrun, rfl⟩ := h
  obtain ⟨hk, hcloses, hconnected, hmessages⟩ := hp.known
  obtain ⟨⟨calls, rfl, hadds⟩, -⟩ := adds hk _ _ hrun
  have hnone : (calls ++ earlier).closes = 0 := by
    rw [Trace.closes_append, hadds.closes, hcloses]
  have hconnected : (calls ++ earlier).connected = decide (.connect ∈ stage.before) := by
    have hfailed : ¬ (stage = .connect ∧ (Except.error e : Except Error Unit) = .ok ()) :=
      fun h => by cases h.2
    rw [Trace.connected_append, hadds.connected, hconnected, decide_eq_false hfailed, Bool.false_or]
  have hsent : ∃ sent, (calls ++ earlier).messages =
      (stage.before.flatMap (messages config) ++ sent).map .ok ∧
        (sent = stage.messages config ∨ stage = .attach ∧ sent = []) := by
    rw [Trace.messages_append, hmessages]
    obtain hsends | ⟨hattach, -, hnothing⟩ := hadds.sends
    · exact ⟨_, by rw [hsends, List.map_append], .inl rfl⟩
    · exact ⟨[], by rw [hnothing, List.append_nil, List.append_nil], .inr ⟨hattach, rfl⟩⟩
  by_cases hc : .connect ∈ stage.before
  · rw [if_pos hc]
    obtain ⟨hclose, hsame, hsilent⟩ := Trace.close_cons answer (calls ++ earlier)
    rw [hclose, hsame, hsilent, hnone, hconnected, decide_eq_true hc]
    exact ⟨rfl, hsent⟩
  · rw [if_neg hc]
    rw [hnone, hconnected, decide_eq_false hc]
    exact ⟨rfl, hsent⟩

end Stage

/-- The calls of an unmount behind a mount. -/
theorem Unmounted.calls {s : Session} {earlier trace : Trace} {r : Except Error Unit}
    (hp : Passed config all s earlier) (h : Unmounted s earlier r trace) :
    trace.closes = 1 ∧ trace.connected = true ∧
      trace.messages =
        (all.flatMap (messages config) ++ [Message.mk sessionTag (.tclunk rootFid)]).map .ok := by
  obtain ⟨clunked, t, reached, answer, hrun, rfl, -⟩ := h
  obtain ⟨hk, hcloses, hconnected, hmessages⟩ := hp.known
  obtain ⟨-, calls, rfl, htraced⟩ := Session.Query.always_traced (.clunk rootFid) _ _ hrun
  obtain ⟨hstill, -⟩ := Trace.still_of_transfers htraced.transfers
  obtain ⟨hclose, hsame, hsilent⟩ := Trace.close_cons answer (calls ++ earlier)
  rw [hclose, hsame, hsilent]
  refine ⟨?_, ?_, ?_⟩
  · rw [Trace.closes_append, hstill, hcloses]
  · rw [Trace.connected_append, hconnected, decide_eq_true (by decide), Bool.or_true]
  · rw [Trace.messages_append, hmessages, List.map_append]
    let op : Session.Query Unit := .clunk rootFid
    obtain ⟨request, hf⟩ : ∃ request, op.sends s = .ok request :=
      Session.Query.sends_of_isPlain rfl hk.least
    obtain ⟨e, hunsent, -⟩ | hsent := htraced.messages trivial
    · cases hf.symm.trans hunsent
    · rw [hsent]
      rfl

/-! ## Servers that speak another protocol -/

/-- The first request was answered with the right protocol. -/
def Greeted (log : Wire) : Prop :=
  ∃ request heard server, log.getLast? = some (request, heard) ∧
    Frame.decode heard = .ok ⟨noTag, .rversion server protocolVersion⟩

/-- If the first request was answered with another protocol, then it is the only one,
and that is the failure. -/
def HeedsVersion (r : Except Error α) (log : Wire) : Prop :=
  ∀ request heard server version, log.getLast? = some (request, heard) →
    Frame.decode heard = .ok ⟨noTag, .rversion server version⟩ → version ≠ protocolVersion →
    r = .error (.unsupportedVersion version) ∧ log = [(request, heard)]

theorem Greeted.heedsVersion {log : Wire} {r : Except Error α} (h : Greeted log) :
    HeedsVersion r log := by
  intro request heard server version hlast hd hv
  obtain ⟨request', heard', server', hlast', hd'⟩ := h
  obtain ⟨-, rfl⟩ := Prod.mk.inj (Option.some.inj (hlast.symm.trans hlast'))
  have hbody := congrArg Message.body (Except.ok.inj (hd.symm.trans hd'))
  exact absurd (Body.rversion.inj hbody).2 hv

theorem HeedsVersion.error {β : Type} {e : Error} {log : Wire}
    (h : HeedsVersion (.error e : Except Error α) log) :
    HeedsVersion (.error e : Except Error β) log := by
  intro request heard server version hlast hd hv
  obtain ⟨he, hlog⟩ := h request heard server version hlast hd hv
  exact ⟨congrArg _ (Except.error.inj he), hlog⟩

theorem Greeted.recorded {α : Type} {s : Session} {op : Session.Query α} {r : Except Error α}
    {log log' : Wire} (h : Greeted log) (hr : op.Recorded s log r log') : Greeted log' := by
  obtain ⟨request, heard, server, hlast, hd⟩ := h
  have hcons (entry : Bytes × Bytes) : (entry :: log).getLast? = some (request, heard) := by
    rw [List.getLast?_cons, hlast]
    rfl
  cases hr with
  | unsent => exact ⟨request, heard, server, hlast, hd⟩
  | answered => exact ⟨request, heard, server, hcons _, hd⟩
  | lost => exact ⟨request, heard, server, hcons _, hd⟩

theorem heedsVersion_negotiate {α : Type} {s : Session} {proposal : UInt32} {e : Error}
    {log : Wire} (h : (Session.Query.negotiate proposal).Recorded s [] (.error e) log) :
    HeedsVersion (.error e : Except Error α) log := by
  intro request heard server version hlast hd hv
  obtain ⟨hleast, hsize, htype, htag, -⟩ := Frame.header_of_decode hd
  cases h with
  | unsent => cases hlast
  | @answered _ frame _ _ _ _ hverdict =>
    obtain ⟨rfl, rfl⟩ := Prod.mk.inj (Option.some.inj hlast)
    let op : Session.Query UInt32 := .negotiate proposal
    have hown : op.verdict s frame = op.reading s (.rversion server version) :=
      Session.Query.verdict_of_decode (fun h => by cases h) hd rfl rfl
    have hrefused : op.reading s (.rversion server version) =
        some (.error (.unsupportedVersion version)) := congrArg some (if_pos hv)
    rw [hown, hrefused] at hverdict
    exact ⟨congrArg _ (Except.error.inj (Option.some.inj hverdict)).symm, rfl⟩
  | lost _ hpart =>
    obtain ⟨rfl, rfl⟩ := Prod.mk.inj (Option.some.inj hlast)
    exact absurd ⟨hleast, hsize⟩ hpart

theorem greeted_negotiate {s : Session} {proposal agreed : UInt32} {log : Wire}
    (h : (Session.Query.negotiate proposal).Recorded s [] (.ok agreed) log) : Greeted log := by
  obtain ⟨request, heard, server, rfl, hd, -⟩ := h.agreed
  exact ⟨request, heard, server, rfl, hd⟩

/-- A handshake and an attach, as they are recorded. -/
theorem always_attach_recorded {s : Session} :
    Client.Always Wire.Step (attach config) s [] fun r _ log =>
      HeedsVersion r log ∧ ∀ root, r = .ok root → Greeted log := by
  have hnegotiate : Client.Always Wire.Step (Session.Query.negotiate config.msize).perform s [] _ :=
    Session.Query.always_recorded
  refine hnegotiate.bind (fun agreed t log h => ?_) fun e t log h => ?_
  · have hattach : Client.Always Wire.Step
        (Session.Query.attach config.uname config.aname).perform t log _ :=
      Session.Query.always_recorded
    have hgreeted := greeted_negotiate h.2
    refine hattach.bind (fun _ u _ h' => .pure ?_) fun e u _ h' => ?_
    · exact ⟨(hgreeted.recorded h'.2).heedsVersion, fun _ _ => hgreeted.recorded h'.2⟩
    · exact ⟨(hgreeted.recorded h'.2).heedsVersion, fun _ h => by cases h⟩
  · exact ⟨heedsVersion_negotiate h.2, fun _ h => by cases h⟩

/-- A call that neither sends nor receives is not recorded. -/
theorem always_unrecorded {c : Call} {log : Wire}
    (hc : ∀ answer, log.record c answer = log) :
    Exchange.Always Wire.Step (Exchange.perform c) log fun _ log' => log' = log :=
  .perform fun answer _ h => h.2.trans (hc answer)

/-- What is recorded of a mount is recorded of its handshake and its attach. -/
theorem always_mount_recorded {Q : Except Error (Volume × Session) → Wire → Prop}
    (hnone : ∀ e, Q (.error e) [])
    (hattach : config.validate = .ok () →
      Client.Always Wire.Step (attach config) { timeout := config.timeout } [] fun r t log =>
        Q ((fun root => ({ root, config }, t)) <$> r) log) :
    (mount config).Always Wire.Step [] Q := by
  rw [mount]
  cases hv : config.validate with
  | error e => exact .lift_bind_error rfl (hnone e)
  | ok u =>
    refine .lift_bind_ok rfl ((always_unrecorded fun _ => rfl).bind (fun _ log h => ?_)
      fun e log h => h ▸ hnone e)
    subst h
    refine (always_unrecorded fun _ => rfl).bind (fun _ log h => ?_) fun e log h => h ▸ hnone e
    subst h
    refine .dialogue_bind (hattach hv) fun (attached, session) log h => ?_
    cases attached with
    | ok root => exact .pure h
    | error e => exact .dialogue_bind (always_unrecorded fun _ => rfl) fun _ _ h' => .throw (h' ▸ h)

theorem heedsVersion_life (config : Config) :
    (life config).Always Wire.Step [] HeedsVersion := by
  have hmount : (mount config).Always Wire.Step [] fun r log =>
      HeedsVersion r log ∧ ∀ mounted, r = .ok mounted → Greeted log := by
    refine always_mount_recorded (fun e => ⟨fun _ _ _ _ h => (by cases h), fun _ h => by cases h⟩)
      fun _ => always_attach_recorded.mono fun r t log h => ?_
    cases r with
    | ok root => exact ⟨(h.2 root rfl).heedsVersion, fun _ _ => h.2 root rfl⟩
    | error e => exact ⟨h.1.error, fun _ h => by cases h⟩
  refine hmount.bind (fun (v, s) log h => ?_) fun e log h => h.1.error
  have hgreeted := h.2 (v, s) rfl
  have hclunk : Client.Always Wire.Step (Session.Query.clunk v.root.fid).perform s log _ :=
    Session.Query.always_recorded
  have hunmount : Client.Always Wire.Step v.unmount s log fun _ _ log' => Greeted log' := by
    refine .bind_of_yields (.attempt hclunk) fun clunked t _ hr => ?_
    have hgreeted' := hgreeted.recorded hr.2
    refine Client.Always.shutdown.bind (fun _ u log'' h => .lift ?_) fun e u log'' h => ?_
    all_goals exact h.2.1 ▸ hgreeted'
  exact .dialogue_bind hunmount fun (r, _) log' h => .pure h.heedsVersion

/-! ## All outcomes -/

/-- Settings that are refused leave the world alone. -/
theorem always_life_of_invalid {e : Error} (hv : config.validate = .error e) :
    (life config).Always Trace.Step [] fun r trace => r = .error e ∧ trace = [] := by
  have hmount : (mount config).Always Trace.Step [] fun r trace => r = .error e ∧ trace = [] :=
    .lift_bind_error hv ⟨rfl, rfl⟩
  refine hmount.bind (fun _ _ h => by cases h.1) fun e' trace h => ?_
  exact ⟨congrArg _ (Except.error.inj h.1), h.2⟩

/-- A mount, and an unmount behind it if it succeeds, come to an end in every world.
Whatever calls are answered, the stream is shut down once if it was connected, and
never otherwise. Settings that are refused leave the world alone. A mount that fails
reports the failure of the first step that fails, and sends nothing behind that step;
if it was answered with another protocol, then the proposal is all that is sent.
An unmount gives back the fid that was attached and shuts the stream down whatever
comes of that; it reports the failure of the second before that of the first. -/
theorem lifecycle (config : Config) :
    (∃ r trace, (life config).run.Runs Trace.Step [] r trace) ∧
    (∀ r trace, (life config).run.Runs Trace.Step [] r trace →
      trace.closes = (if trace.connected then 1 else 0) ∧
      (∀ e, config.validate = .error e → r = .error e ∧ trace = []) ∧
      (∀ e, r = .error e → ∃ stage, FailedAt config stage e trace ∧
        ∃ sent, trace.messages = (stage.before.flatMap (messages config) ++ sent).map .ok ∧
          (sent = stage.messages config ∨ stage = .attach ∧ sent = [])) ∧
      ∀ unmounted, r = .ok unmounted → ∃ s earlier, Passed config all s earlier ∧
        Unmounted s earlier unmounted trace ∧
        trace.messages =
          (all.flatMap (messages config) ++ [Message.mk sessionTag (.tclunk rootFid)]).map .ok) ∧
    ∀ r log, (life config).run.Runs Wire.Step [] r log → HeedsVersion r log := by
  refine ⟨Trace.runs_total _ _, fun r trace hrun => ?_, heedsVersion_life config⟩
  have hlife := always_life config r trace hrun
  refine ⟨?_, fun e hv => always_life_of_invalid hv r trace hrun, fun e he => ?_, fun u hu => ?_⟩
  · cases r with
    | error e =>
      obtain ⟨stage, hfailed⟩ := hlife
      exact hfailed.calls.1
    | ok unmounted =>
      obtain ⟨s, earlier, hp, hu⟩ := hlife
      obtain ⟨hcloses, hconnected, -⟩ := hu.calls hp
      rw [hcloses, hconnected]
      rfl
  · subst he
    obtain ⟨stage, hfailed⟩ := hlife
    exact ⟨stage, hfailed, hfailed.calls.2⟩
  · subst hu
    obtain ⟨s, earlier, hp, hu⟩ := hlife
    exact ⟨s, earlier, hp, hu, (hu.calls hp).2.2⟩

/-- The settings for a server with nothing else said. -/
def plainConfig : Config := { remote := .v4 ⟨1⟩ defaultPort }

/-- The response of a server that speaks an older protocol. -/
def olderProtocol : Bytes :=
  [19, 0, 0, 0, 101, 255, 255, 0, 32, 0, 0, 6, 0, 57, 80, 50, 48, 48, 48]

/-- The older protocol is reported, and not that the stream cannot be shut down. -/
theorem lifecycle_older_protocol :
    ∃ trace, (life plainConfig).run.Runs Trace.Step [] (.error (.unsupportedVersion "9P2000"))
        ((.close, .failed (.transport .notConnected)) :: trace) ∧
      Trace.closes ((.close, .failed (.transport .notConnected)) :: trace) = 1 ∧
      ∃ stage, FailedAt plainConfig stage (.unsupportedVersion "9P2000")
        ((.close, .failed (.transport .notConnected)) :: trace) := by
  have hrun : (life plainConfig).run.Runs Trace.Step [] (.error (.unsupportedVersion "9P2000")) _ :=
    .ask (.given _ _ (.done [])) (.ask (.given _ _ (.done [])) (.ask (.given _ _ (.done []))
      (.ask (.given _ _ (.done (olderProtocol.take 4)))
        (.ask (.given _ _ (.done (olderProtocol.drop 4)))
          (.ask (.given _ _ (.failed (.transport .notConnected))) (.done _ _))))))
  obtain ⟨-, htrace, -⟩ := lifecycle plainConfig
  obtain ⟨hcloses, -, hfailed, -⟩ := htrace _ _ hrun
  obtain ⟨stage, hstage, -⟩ := hfailed _ rfl
  exact ⟨_, hrun, hcloses, stage, hstage⟩

end Volume

end NineP
