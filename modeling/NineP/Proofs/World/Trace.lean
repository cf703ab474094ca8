import NineP.Proofs.Session.Asked
import NineP.Proofs.Session.Query

/-!
# What is asked of the world

Whatever a world answers, what it was asked can be written down with the answers.
Nothing at all is assumed of them (`Trace.Step`):

* `Trace.runs_of_runs`: a run in any world is a run here;
* `Exchange.Always.traced`: an exchange transmits its request once, and otherwise
  only receives;
* `Session.Query.always_traced`: so does an operation, unless its request is
  refused, and then it asks for nothing.
-/

namespace NineP

/-- The calls with their answers, the last first. -/
abbrev Trace := List (Call × Answer)

/-- The request that a call sends, if it sends one. -/
def Call.request? : Call → Option Bytes
  | .transmit request _ => some request
  | _ => none

/-- Whether a call moves bytes on the stream. -/
def Call.isTransfer : Call → Bool
  | .transmit .. | .receive _ => true
  | _ => false

namespace Trace

/-- Any answer may come to a call. -/
def Step (trace : Trace) (c : Call) (answer : Answer) (trace' : Trace) : Prop :=
  trace' = (c, answer) :: trace

theorem Step.given (trace : Trace) (c : Call) (answer : Answer) :
    Step trace c answer ((c, answer) :: trace) := rfl

/-- What a client does in some world, it does here. -/
theorem runs_of_runs {σ α : Type} {step : σ → Call → Answer → σ → Prop} {d : Dialogue α}
    {s t : σ} {a : α} (h : d.Runs step s a t) (trace : Trace) :
    ∃ trace', d.Runs Step trace a trace' := by
  induction h generalizing trace with
  | done s a => exact ⟨trace, .done trace a⟩
  | @ask s t u c answer next a hs hr ih =>
    obtain ⟨trace', htrace'⟩ := ih ((c, answer) :: trace)
    exact ⟨trace', .ask rfl htrace'⟩

theorem runs_total {α : Type} (d : Dialogue α) (trace : Trace) :
    ∃ a trace', d.Runs Step trace a trace' :=
  Dialogue.Runs.total (fun trace c => ⟨.stalled, (c, .stalled) :: trace, rfl⟩) d trace

/-- The requests that were sent, in their order. A request counts as sent whatever
comes of sending it. -/
def requests (trace : Trace) : List Bytes :=
  trace.reverse.filterMap fun entry => entry.1.request?

theorem requests_append (later earlier : Trace) :
    requests (later ++ earlier) = requests earlier ++ requests later := by
  rw [requests, List.reverse_append, List.filterMap_append]
  rfl

/-- Nothing but bytes of one exchange are moved between the two. -/
structure Conveyed (request : Bytes) (calls : Trace) : Prop where
  transfers : ∀ entry ∈ calls, entry.1.isTransfer = true
  requests : requests calls = [request]

/-- Bytes were received, and nothing else. -/
structure Received (calls : Trace) : Prop where
  transfers : ∀ entry ∈ calls, entry.1.isTransfer = true
  requests : requests calls = []

namespace Received

theorem nil : Received [] := ⟨fun _ h => (by cases h), rfl⟩

theorem receive (most : Nat) (answer : Answer) : Received [(.receive most, answer)] := by
  refine ⟨fun entry h => ?_, rfl⟩
  rw [List.mem_singleton.1 h]
  rfl

theorem append {later earlier : Trace} (h : Received later) (h' : Received earlier) :
    Received (later ++ earlier) := by
  refine ⟨fun entry he => (List.mem_append.1 he).elim (h.transfers entry) (h'.transfers entry), ?_⟩
  rw [requests_append, h.requests, h'.requests]
  rfl

/-- The request stands in front of what is received. -/
theorem conveyed {calls : Trace} (h : Received calls) (request : Bytes) (limit : Option UInt64)
    (answer : Answer) : Conveyed request (calls ++ [(.transmit request limit, answer)]) := by
  refine ⟨fun entry he => ?_, ?_⟩
  · rcases List.mem_append.1 he with he | he
    · exact h.transfers entry he
    · rw [List.mem_singleton.1 he]
      rfl
  · rw [requests_append, h.requests]
    rfl

end Received

end Trace

namespace Exchange.Always

variable {trace : Trace} {request : Bytes}

/-- Receiving makes no other calls. -/
theorem received_collectFrom {fuel wanted : Nat} {acc : Bytes} :
    Always Trace.Step (Exchange.collectFrom fuel wanted acc) trace fun _ trace' =>
      ∃ calls, trace' = calls ++ trace ∧ Trace.Received calls := by
  induction fuel generalizing wanted acc trace with
  | zero =>
    cases wanted with
    | zero => exact .pure ⟨[], rfl, .nil⟩
    | succ wanted => exact .throw ⟨[], rfl, .nil⟩
  | succ fuel ih =>
    cases wanted with
    | zero => exact .pure ⟨[], rfl, .nil⟩
    | succ wanted =>
      have hreceive : Always Trace.Step (Exchange.receive (wanted + 1)) trace fun _ trace' =>
          ∃ answer, trace' = (.receive (wanted + 1), answer) :: trace := by
        show Always _ (Exchange.call _ >>= fun bytes => Pure.pure (bytes.take (wanted + 1))) _ _
        rw [← map_eq_pure_bind]
        exact .map (.call fun answer trace' h => ⟨answer, h⟩)
      refine hreceive.bind (fun bytes trace' h => ?_) fun e trace' h => ?_
      · obtain ⟨answer, rfl⟩ := h
        show Always _ (if bytes.isEmpty then _ else _) _ _
        by_cases he : bytes.isEmpty = true
        · rw [if_pos he]
          exact .throw ⟨[_], rfl, .receive _ answer⟩
        · rw [if_neg he]
          refine ih.mono fun r trace' h => ?_
          obtain ⟨calls, rfl, hcalls⟩ := h
          exact ⟨calls ++ [_], (List.append_cons ..), hcalls.append (.receive _ answer)⟩
      · obtain ⟨answer, rfl⟩ := h
        exact ⟨[_], rfl, .receive _ answer⟩

/-- An exchange transmits its request once, and otherwise only receives. -/
theorem traced {capacity : Nat} {limit : Option UInt64} :
    Always Trace.Step (NineP.exchange request capacity limit) trace fun _ trace' =>
      ∃ calls, trace' = calls ++ trace ∧ Trace.Conveyed request calls := by
  have htransmit : Always Trace.Step (Exchange.perform (.transmit request limit)) trace
      fun _ trace' => ∃ answer, trace' = (.transmit request limit, answer) :: trace :=
    .perform fun answer trace' h => ⟨answer, h⟩
  have hclose {answer : Answer} {calls : Trace} (h : Trace.Received calls) :
      ∃ calls', calls ++ (.transmit request limit, answer) :: trace = calls' ++ trace ∧
        Trace.Conveyed request calls' :=
    ⟨_, List.append_cons .., h.conveyed request limit answer⟩
  refine htransmit.bind (fun _ trace' h => ?_) fun e trace' h => ?_
  · obtain ⟨answer, rfl⟩ := h
    refine received_collectFrom.bind (fun field trace' h => ?_) fun e trace' h => ?_
    · obtain ⟨calls, rfl, hcalls⟩ := h
      refine .relies (.refuse (fun _ => hclose hcalls) fun _ => ?_)
      refine .refuse (fun _ => hclose hcalls) fun _ => ?_
      refine received_collectFrom.bind (fun rest trace' h => .pure ?_) fun e trace' h => ?_
      all_goals
        obtain ⟨more, rfl, hmore⟩ := h
        rw [← List.append_assoc]
        exact hclose (hmore.append hcalls)
    · obtain ⟨calls, rfl, hcalls⟩ := h
      exact hclose hcalls
  · obtain ⟨answer, rfl⟩ := h
    exact hclose .nil

end Exchange.Always

namespace Session.Query

variable {α : Type} {s : Session} {op : Query α} {trace : Trace}

/-- What an operation, with its result, asks of the world: nothing if its request is
refused, or else its exchange, and the result is made of the response. -/
inductive Traced (s : Session) (op : Query α) : Except Error α → Trace → Prop where
  | unsent {e : Error} : op.sends s = .error e → Traced s op (.error e) []
  | sent {request : Bytes} {response : Except Error Bytes} {r : Except Error α} {calls : Trace} :
    op.sends s = .ok request → Trace.Conveyed request calls → r = op.result s response →
    Traced s op r calls

theorem always_traced (op : Query α) :
    Client.Always Trace.Step op.perform s trace fun r t trace' =>
      t = op.leaves s r ∧ ∃ calls, trace' = calls ++ trace ∧ op.Traced s r calls := by
  refine Query.always (fun e he => ⟨rfl, [], rfl, .unsent he⟩) fun request hf => ?_
  refine Exchange.Always.traced.mono fun response trace' h => ?_
  obtain ⟨calls, rfl, hcalls⟩ := h
  exact ⟨rfl, calls, rfl, .sent hf hcalls rfl⟩

theorem Traced.transfers {r : Except Error α} {calls : Trace} (h : op.Traced s r calls) :
    ∀ entry ∈ calls, entry.1.isTransfer = true := by
  cases h with
  | unsent => exact fun _ h => by cases h
  | sent _ hcalls _ => exact hcalls.transfers

/-- A result that is decoded stands in a response. -/
theorem reading_of_result {response : Except Error Bytes} {a : α} (hl : op.expected ≠ .rreadlink)
    (h : op.result s response = .ok a) : ∃ b, op.reading s b = some (.ok a) := by
  rw [result] at h
  cases hc : checked op.tag op.expected response with
  | error e =>
    rw [hc] at h
    cases h
  | ok frame =>
    rw [hc] at h
    have h : (op.judge s frame).getD (.error _) = .ok a := h
    rw [judge_of_ne hl, decoded] at h
    cases hd : Frame.decode frame with
    | error fault =>
      rw [hd] at h
      cases h
    | ok m =>
      rw [hd] at h
      refine ⟨m.body, ?_⟩
      have h : (op.reading s m.body).getD (.error _) = .ok a := h
      cases hr : op.reading s m.body with
      | none =>
        rw [hr] at h
        cases h
      | some r =>
        rw [hr] at h
        exact congrArg some h

/-- The fid of an attach is the next one. -/
theorem fid_of_attach {uname aname : String} {response : Except Error Bytes} {fid : UInt32}
    {qid : Qid} (h : (attach uname aname).result s response = .ok (fid, qid)) :
    fid = s.fids.take.1 := by
  obtain ⟨b, hb⟩ := reading_of_result (fun h => by cases h) h
  cases b with
  | rattach qid' =>
    have hb := Except.ok.inj (Option.some.inj hb)
    exact (Prod.mk.inj hb).1.symm
  | _ => cases hb

/-- A handshake that succeeds agrees on a size that is large enough. -/
theorem least_of_negotiate {proposal agreed : UInt32} {response : Except Error Bytes}
    (hp : minMsize ≤ proposal) (h : (negotiate proposal).result s response = .ok agreed) :
    minMsize ≤ agreed := by
  obtain ⟨b, hb⟩ := reading_of_result (fun h => by cases h) h
  cases b with
  | rversion server version =>
    have hb : (if version ≠ protocolVersion then .error (.unsupportedVersion version)
        else if server < minMsize then .error (.decode (.unusableMsize server))
        else .ok (min server proposal) : Except Error UInt32) = .ok agreed := Option.some.inj hb
    split at hb
    · cases hb
    split at hb
    · cases hb
    · rename_i hs
      obtain rfl := Except.ok.inj hb
      show minMsize ≤ if server ≤ proposal then server else proposal
      split
      · exact UInt32.not_lt.1 hs
      · exact hp
  | _ => cases hb

end Session.Query

end NineP
