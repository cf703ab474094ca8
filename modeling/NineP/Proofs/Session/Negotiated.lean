import NineP.Proofs.Session.Conversation
import NineP.Proofs.Session.Record

/-!
# The agreed message size

The message size is written by the handshake alone, and it is never less than the
smallest one, so that the framing of a read can be taken off it:

* `Session.Reached`: the sessions that a client may come to, whatever it asks for
  and whatever it receives;
* `Session.Reached.least`: the message size of each is large enough;
* `Session.Query.Recorded.agreed`: what a handshake that succeeds has agreed on;
* `Session.Query.asksWithin_sent`: no request asks for more than fits a message;
* `Session.negotiated`: all of this, and that no reply is too long that keeps to
  the count it was asked for.
-/

namespace NineP

/-- The number of bytes that a request asks for. -/
def Body.count? : Body → Option UInt32
  | .tread _ _ count | .treaddir _ _ count => some count
  | _ => none

theorem Body.asksWithin_of_count {b : Body} {n : Nat}
    (h : ∀ count, b.count? = some count → count.toNat ≤ n) : b.AsksWithin n := by
  cases b with
  | tread fid offset count => exact h count rfl
  | treaddir fid cookie count => exact h count rfl
  | _ => exact trivial

namespace Session

/-- The sessions that may be reached from a new one, with the record of what went
over the wire. -/
inductive Reached : Session → Wire → Prop where
  | start (timeout : Option UInt64) : Reached { timeout } []
  | query {α : Type} {op : Query α} {s t : Session} {log log' : Wire} {r : Except Error α} :
    Reached s log → (op.perform.runIn s).Runs Wire.Step log (r, t) log' → Reached t log'
  | freshFid {s t : Session} {log log' : Wire} {r : Except Error UInt32} :
    Reached s log → (Client.freshFid.runIn s).Runs Wire.Step log (r, t) log' → Reached t log'
  | shutdown {s t : Session} {log log' : Wire} {r : Except Error Unit} :
    Reached s log → (shutdown.runIn s).Runs Wire.Step log (r, t) log' → Reached t log'

namespace Query

variable {α : Type} {s : Session} {op : Query α} {log log' : Wire}

/-- A handshake that succeeds was answered with the right protocol and a large
enough size. -/
theorem Recorded.agreed {proposal agreed : UInt32}
    (h : (negotiate proposal).Recorded s log (.ok agreed) log') :
    ∃ request heard server, log' = (request, heard) :: log ∧
      Frame.decode heard = .ok ⟨noTag, .rversion server protocolVersion⟩ ∧
      minMsize ≤ proposal ∧ minMsize ≤ server ∧ agreed = min server proposal := by
  cases h with
  | @answered request heard _ hf _ _ hr =>
    obtain ⟨⟨tag, body⟩, hd, rfl, hreading⟩ := (verdict_eq_ok (fun h => by cases h)).1 hr
    have hproposal : ¬ proposal < minMsize := by
      intro hp
      have hvetted := (sends_eq_ok.1 hf).1
      rw [vetted, if_pos hp] at hvetted
      cases hvetted
    cases body with
    | rversion server version =>
      have hreading : (if version ≠ protocolVersion then .error (.unsupportedVersion version)
          else if server < minMsize then .error (.decode (.unusableMsize server))
          else .ok (min server proposal) : Except Error UInt32) = .ok agreed :=
        Option.some.inj hreading
      by_cases hv : version ≠ protocolVersion
      · rw [if_pos hv] at hreading
        cases hreading
      obtain rfl := not_not.1 hv
      rw [if_neg hv] at hreading
      by_cases hs : server < minMsize
      · rw [if_pos hs] at hreading
        cases hreading
      rw [if_neg hs] at hreading
      exact ⟨request, heard, server, rfl, hd, UInt32.not_lt.1 hproposal, UInt32.not_lt.1 hs,
        (Except.ok.inj hreading).symm⟩
    | _ => cases hreading

/-- An operation leaves a message size that is large enough. -/
theorem Recorded.least {r : Except Error α} (h : op.Recorded s log r log')
    (hs : minMsize ≤ s.msize) : minMsize ≤ (op.leaves s r).msize := by
  cases op with
  | negotiate proposal =>
    cases r with
    | error e => exact hs
    | ok agreed =>
      obtain ⟨-, -, server, -, -, hproposal, hserver, rfl⟩ := h.agreed
      show minMsize ≤ if server ≤ proposal then server else proposal
      split
      · exact hserver
      · exact hproposal
  | _ => exact hs

theorem recorded_of_runs {t : Session} {r : Except Error α}
    (h : (op.perform.runIn s).Runs Wire.Step log (r, t) log') :
    t = op.leaves s r ∧ op.Recorded s log r log' := always_recorded _ _ h

end Query

theorem Reached.least {s : Session} {log : Wire} (h : Reached s log) : minMsize ≤ s.msize := by
  induction h with
  | start timeout =>
    show (256 : UInt32) ≤ 8192
    decide
  | query h hrun ih =>
    obtain ⟨rfl, hr⟩ := Query.recorded_of_runs hrun
    exact hr.least ih
  | freshFid h hrun ih =>
    obtain ⟨hr, -⟩ := Dialogue.runs_done.1 hrun
    obtain ⟨-, rfl⟩ := Prod.mk.inj hr
    exact ih
  | shutdown h hrun ih =>
    obtain ⟨rfl, -⟩ := Client.Always.shutdown _ _ hrun
    exact ih

/-! ## Counts -/

namespace Query

variable {α : Type} {s : Session} {op : Query α} {request frame : Bytes} {m : Message}

/-- What an operation asks for fits a message behind its framing. -/
theorem count_le {count : UInt32} (hs : minMsize ≤ s.msize)
    (h : (op.body s).count? = some count) : count.toNat ≤ s.msize.toNat - 24 := by
  rw [← toNat_readCeiling hs]
  cases op with
  | read fid offset most =>
    cases h
    exact toNat_min_le most s.readCeiling
  | readdir fid cookie most =>
    cases h
    exact toNat_min_le most s.readCeiling
  | _ => cases h

/-- A request is a frame of its operation's body. -/
theorem type_of_sends (h : op.sends s = .ok request) (hd : Frame.decode request = .ok m) :
    m.body.type = (op.body s).type := by
  obtain ⟨-, hencode, -⟩ := requestFrame_eq_ok.1 (sends_eq_ok.1 h).2
  obtain ⟨htype, -⟩ := Frame.header_of_encode (op.payloadFits_body s) hencode
  obtain ⟨-, -, htype', -⟩ := Frame.header_of_decode hd
  exact MessageType.id_injective (htype'.symm.trans htype)

/-- No request asks for more than fits a message. -/
theorem asksWithin_sent (hs : minMsize ≤ s.msize) (h : op.sends s = .ok request)
    (hd : Frame.decode request = .ok m) : m.body.AsksWithin (s.msize.toNat - 24) := by
  refine Body.asksWithin_of_count fun count hcount => ?_
  have htype := type_of_sends h hd
  obtain ⟨-, hf⟩ := sends_eq_ok.1 h
  have hown (hc : (op.body s).CountsHold) (hk : (op.body s).known = op.body s) :
      (op.body s).count? = some count := by
    have hdecode := decode_of_requestFrame hf hc (op.payloadFits_body s)
    obtain rfl := Except.ok.inj (hd.symm.trans hdecode)
    rw [← hcount]
    exact congrArg Body.count? hk.symm
  cases op with
  | read => exact count_le hs (hown trivial rfl)
  | readdir => exact count_le hs (hown trivial rfl)
  | _ =>
    obtain ⟨tag, body⟩ := m
    cases body with
    | tread => cases htype
    | treaddir => cases htype
    | _ => cases hcount

theorem isPlain_of_count {count : UInt32} (h : (op.body s).count? = some count) :
    op.isPlain = true := by
  cases op with
  | negotiate => cases h
  | attach => cases h
  | walk => cases h
  | _ => rfl

/-- An error report that is decoded has room for its number. -/
theorem errorReportSize_le {tag : UInt16} {ecode : UInt32}
    (h : Frame.decode frame = .ok ⟨tag, .rlerror ecode⟩) : errorReportSize ≤ frame.length := by
  refine Nat.le_of_not_lt fun hl => ?_
  have hreport := checkErrorReport_of_decode h
  rw [checkErrorReport_eq, if_pos hl] at hreport
  split at hreport <;> cases hreport

/-- A well-formed reply is never too short for what it is read as. -/
theorem verdict_ne_bufferTooSmall {count : UInt32} (h : (op.body s).count? = some count)
    (hd : Frame.decode frame = .ok m) (required most : Nat) :
    op.verdict s frame ≠ some (.error (.bufferTooSmall required most)) := by
  obtain ⟨tag, b⟩ := m
  obtain ⟨-, -, htype, -⟩ := Frame.header_of_decode hd
  have hjudge : op.judge s frame ≠ some (.error (.bufferTooSmall required most)) := by
    cases op with
    | read fid offset most =>
      rw [judge_of_ne (fun h => by cases h), decoded, hd]
      cases b with
      | rread data =>
        show some (if _ then _ else _) ≠ _
        split <;> exact fun h => by cases h
      | _ => exact fun h => by cases h
    | readdir fid cookie most =>
      rw [judge_of_ne (fun h => by cases h), decoded, hd]
      cases b <;> exact fun h => by cases h
    | _ => cases h
  rw [verdict]
  split
  · exact fun h => by cases h
  split
  · exact hjudge
  split
  · rename_i hr
    have hb : b.type = .rlerror := MessageType.id_injective (htype.symm.trans hr)
    have hlong : ¬ frame.length < errorReportSize := by
      cases b with
      | rlerror ecode => exact Nat.not_lt.2 (errorReportSize_le hd)
      | _ => cases hb
    rw [if_neg hlong]
    split <;> exact fun h => by cases h
  · exact fun h => by cases h

/-- A reply with no more bytes than were asked for fits, and it is not taken for
one that is too long. The bytes stand behind a header and their count. -/
theorem fits_of_count {count : UInt32} {p : Peer} {reply rest : Bytes} (hs : minMsize ≤ s.msize)
    (h : (op.body s).count? = some count) (hstream : p.stream ++ reply = frame ++ rest)
    (hd : Frame.decode frame = .ok m) (hcount : (frame.drop 11).length ≤ count.toNat) :
    frame.length ≤ (op.capacity s).toNat ∧
      ∀ r t q, (op.perform.runIn s).Runs (Peer.Step (.replying reply)) p (r, t) q →
        op.verdict s frame = some r ∧ q.stream = rest ∧
          ∀ required most, r ≠ .error (.bufferTooSmall required most) := by
  have hmost : frame.length ≤ (op.capacity s).toNat := by
    have hleast : 256 ≤ s.msize.toNat := UInt32.le_iff_toNat_le.1 hs
    have hasked := count_le hs h
    have hcapacity : op.capacity s = s.msize := by
      cases op with
      | negotiate => cases h
      | _ => rfl
    rw [List.length_drop] at hcount
    rw [hcapacity]
    omega
  obtain ⟨request, hsent⟩ := sends_of_isPlain (isPlain_of_count h) hs
  obtain ⟨hleast, hsize, -⟩ := Frame.header_of_decode hd
  obtain ⟨r', hr⟩ := op.exists_verdict s frame
  refine ⟨hmost, fun r t q hrun => ?_⟩
  obtain ⟨rfl, -, hrest, -⟩ := always_decided hsent hstream hleast hmost hsize hr _ _ hrun
  exact ⟨hr, hrest, fun required most he => verdict_ne_bufferTooSmall h hd required most (he ▸ hr)⟩

end Query

/-- In every session that can be reached the message size is large enough. A
handshake that succeeds sets it to the lesser of the proposal and the size in the
server's response, and one that fails changes nothing that has been agreed on.
So what is left of the message size for a payload is never below zero, no request
asks for more, and no reply with as many bytes as it was asked for is too long. -/
theorem negotiated {s : Session} {log : Wire} (h : Reached s log) :
    minMsize ≤ s.msize ∧
    (∀ proposal r t log',
      ((Query.negotiate proposal).perform.runIn s).Runs Wire.Step log (r, t) log' →
      (∀ agreed, r = .ok agreed → ∃ request heard server, log' = (request, heard) :: log ∧
        Frame.decode heard = .ok ⟨noTag, .rversion server protocolVersion⟩ ∧
        agreed = min server proposal ∧ t.msize = min server proposal ∧
        t.version = protocolVersion) ∧
      ∀ e, r = .error e → t.msize = s.msize ∧ t.version = s.version) ∧
    (24 ≤ s.msize.toNat ∧ s.readCeiling.toNat = s.msize.toNat - 24 ∧
      s.readdirCeiling.toNat = s.msize.toNat - 24) ∧
    (∀ (α : Type) (op : Query α) r t request heard m,
      (op.perform.runIn s).Runs Wire.Step log (r, t) ((request, heard) :: log) →
      Frame.decode request = .ok m → m.body.AsksWithin (s.msize.toNat - 24)) ∧
    ∀ (α : Type) (op : Query α) count p reply frame rest m, (op.body s).count? = some count →
      p.stream ++ reply = frame ++ rest → Frame.decode frame = .ok m →
      (frame.drop 11).length ≤ count.toNat →
      frame.length ≤ (op.capacity s).toNat ∧
        ∀ r t q, (op.perform.runIn s).Runs (Peer.Step (.replying reply)) p (r, t) q →
          op.verdict s frame = some r ∧ q.stream = rest ∧
            ∀ required most, r ≠ .error (.bufferTooSmall required most) := by
  have hleast := h.least
  have hroom : 256 ≤ s.msize.toNat := UInt32.le_iff_toNat_le.1 hleast
  refine ⟨hleast, fun proposal r t log' hrun => ?_,
    ⟨by omega, toNat_readCeiling hleast, toNat_readCeiling hleast⟩,
    fun α op r t request heard m hrun hd => ?_,
    fun α op count p reply frame rest m hcount hstream hd hl =>
      Query.fits_of_count hleast hcount hstream hd hl⟩
  · obtain ⟨rfl, hr⟩ := Query.recorded_of_runs hrun
    refine ⟨fun agreed hagreed => ?_, fun e he => ?_⟩
    · subst hagreed
      obtain ⟨request, heard, server, hlog, hd, -, -, rfl⟩ := hr.agreed
      exact ⟨request, heard, server, hlog, hd, rfl, rfl, rfl⟩
    · subst he
      exact ⟨rfl, rfl⟩
  · obtain ⟨-, hr⟩ := Query.recorded_of_runs hrun
    obtain ⟨log', hlog⟩ : ∃ log', log' = (request, heard) :: log := ⟨_, rfl⟩
    rw [← hlog] at hr
    cases hr with
    | unsent => exact absurd (congrArg List.length hlog) (by simp)
    | answered hf =>
      obtain rfl := (Prod.mk.inj (List.cons.inj hlog).1).1
      exact Query.asksWithin_sent hleast hf hd
    | lost hf =>
      obtain rfl := (Prod.mk.inj (List.cons.inj hlog).1).1
      exact Query.asksWithin_sent hleast hf hd

/-! ## A server that settles for less -/

/-- The proposal of 300 bytes. -/
def proposal300 : Bytes :=
  [21, 0, 0, 0, 100, 255, 255, 44, 1, 0, 0, 8, 0, 57, 80, 50, 48, 48, 48, 46, 76]

/-- The response that settles for 256. -/
def settled256 : Bytes :=
  [21, 0, 0, 0, 101, 255, 255, 0, 1, 0, 0, 8, 0, 57, 80, 50, 48, 48, 48, 46, 76]

/-- The session after the two. -/
def agreed256 : Session := { msize := 256, version := protocolVersion }

theorem reached_agreed256 : Reached agreed256 [(proposal300, settled256)] := by
  have hrun : ((Query.negotiate 300).perform.runIn {}).Runs Wire.Step [] (.ok 256, agreed256)
      [(proposal300, settled256)] :=
    .ask (.done _ _ []) (.ask (.done _ _ (settled256.take 4))
      (.ask (.done _ _ (settled256.drop 4)) (.done _ _)))
  exact .query (.start none) hrun

/-- What is left for a payload. -/
theorem negotiated_agreed256 :
    Reached agreed256 [(proposal300, settled256)] ∧ agreed256.readCeiling.toNat = 232 := by
  obtain ⟨-, -, ⟨-, hceiling, -⟩, -⟩ := negotiated reached_agreed256
  exact ⟨reached_agreed256, hceiling⟩

end Session

end NineP
