import NineP.Proofs.Session.Asked
import NineP.Proofs.Session.Verdict
import NineP.Proofs.Wire.Misread
import NineP.Proofs.World.Discipline

/-!
# Operations as they are recorded

An operation enters at most one request into the record of what goes over the
wire. Its result can be told from what was received after that request:

* `Error.OfResponse`: what may be found wrong with a response, which is no mistake of
  the caller;
* `Session.Query.Recorded`: the three ways an operation may go;
* `Session.Query.always_recorded`: it goes no other way;
* `Session.Query.verdict_eq_ok`: it has a result if what was received decodes to
  a response that holds it, with the tag of the request, and in no other case;
* `Session.Query.Recorded.told`: so the result is that of a request and its answer
  in the transcript.
-/

namespace NineP

/-! ## Errors -/

/-- Whether an error says that the caller asked for something wrong. -/
def Error.isMisuse : Error → Bool
  | .invalidParameter _ => true
  | _ => false

theorem Error.isUnsent_of_isMisuse {e : Error} (h : e.isMisuse = false) :
    e.isUnsent = false := by
  cases e with
  | invalidParameter => cases h
  | _ => rfl

theorem ServerError.errno_ne_zero (e : ServerError) : e.errno ≠ 0 := by
  cases e <;> simp [ServerError.errno]

/-- What is wrong with a response. Such an error has a number other than zero. -/
inductive Error.OfResponse : Error → Prop where
  | version (version : String) : OfResponse (.unsupportedVersion version)
  | unexpected (expected : MessageType) (got : UInt8) :
    OfResponse (.unexpectedResponse expected got)
  | tag (expected got : UInt16) : OfResponse (.tagMismatch expected got)
  | malformed {fault : Fault} (h : fault.errno ≠ 0) : OfResponse (.decode fault)
  | server (error : ServerError) : OfResponse (.server error)
  | tooLong (required capacity : Nat) : OfResponse (.bufferTooSmall required capacity)

namespace Error.OfResponse

variable {e : Error}

theorem isMisuse (h : e.OfResponse) : e.isMisuse = false := by cases h <;> rfl

theorem errno_ne_zero (h : e.OfResponse) : e.errno ≠ 0 := by
  cases h with
  | malformed h => exact h
  | server error => exact error.errno_ne_zero
  | _ => simp [Error.errno]

end Error.OfResponse

theorem Fault.Misread.errno_ne_zero {fault : Fault} (h : fault.Misread) : fault.errno ≠ 0 := by
  cases h <;> simp [Fault.errno, Fault.kind]

/-- Bytes that are not a frame are a failure with a number. -/
theorem Frame.errno_of_decode {frame : Bytes} {fault : Fault}
    (h : Frame.decode frame = .error fault) : fault.errno ≠ 0 := by
  rcases Frame.misread_of_decode h with h | ⟨size, rfl⟩ | rfl
  · exact h.errno_ne_zero
  · simp [Fault.errno, Fault.kind]
  · simp [Fault.errno, Fault.kind]

theorem ofResponse_of_boundedText {capacity : Nat} {bs : Bytes} {e : Error}
    (h : (boundedText capacity bs).1 = .error e) : e.OfResponse := by
  rw [boundedText] at h
  cases hn : Codec.u16.decode bs with
  | error fault =>
    rw [hn] at h
    cases h
    exact .malformed (Reader.Plain.word.misread hn).errno_ne_zero
  | ok found =>
    obtain ⟨n, rest⟩ := found
    rw [hn] at h
    change (if _ then _ else _ : Except Error String × Bytes).1 = _ at h
    split at h
    · cases h
      exact .tooLong ..
    · cases ht : Codec.decodeText n.toNat rest with
      | ok found =>
        rw [ht] at h
        cases h
      | error fault =>
        rw [ht] at h
        cases h
        exact .malformed ((Reader.Plain.decodeText _).misread ht).errno_ne_zero

namespace Session.Query

variable {α : Type} {s : Session} {op : Query α} {log : Wire} {frame : Bytes}

/-- What an operation, with its result, adds to the record. -/
inductive Recorded (s : Session) (op : Query α) (log : Wire) : Except Error α → Wire → Prop where
  | unsent {e : Error} : op.sends s = .error e → Recorded s op log (.error e) log
  | answered {request frame : Bytes} {r : Except Error α} : op.sends s = .ok request →
    Wire.Whole frame → frame.length ≤ (op.capacity s).toNat → op.verdict s frame = some r →
    Recorded s op log r ((request, frame) :: log)
  | lost {request bytes : Bytes} {e : Error} : op.sends s = .ok request →
    ¬ Wire.Whole bytes → e.isLost = true → Recorded s op log (.error e) ((request, bytes) :: log)

theorem always_recorded :
    Client.Always Wire.Step op.perform s log fun r t log' =>
      t = op.leaves s r ∧ op.Recorded s log r log' := by
  refine Query.always (fun e he => ⟨rfl, .unsent he⟩) fun request hf => ?_
  refine Exchange.Always.heard.mono fun response log' h => ?_
  cases h with
  | @whole frame hw hmost =>
    obtain ⟨r, hr⟩ := op.exists_verdict s frame
    rw [result_of_verdict hr]
    exact ⟨rfl, .answered hf hw hmost hr⟩
  | lost hw he => exact ⟨rfl, .lost hf hw he⟩

/-- A plain request is short, so that it is always sent. -/
theorem sends_of_isPlain (h : op.isPlain = true) (hs : minMsize ≤ s.msize) :
    ∃ request, op.sends s = .ok request := by
  have hbody : (op.body s).texts = [] ∧ (op.body s).size ≤ 16 ∧ op.vetted = .ok () ∧
      op.capacity s = s.msize := by
    cases op with
    | negotiate => cases h
    | attach => cases h
    | walk => cases h
    | _ => exact ⟨rfl, Nat.le_of_ble_eq_true rfl, rfl, rfl⟩
  obtain ⟨htexts, hsize, hvetted, hcapacity⟩ := hbody
  obtain ⟨request, hf⟩ := requestFrame_of_small (m := ⟨op.tag, op.body s⟩) (op.response_body s)
    htexts (show 4 + (1 + 2 + (op.body s).size) ≤ 256 by omega) hs
  exact ⟨request, sends_eq_ok.2 ⟨hvetted, hcapacity ▸ hf⟩⟩

/-- An operation that decodes its response has a result if the response holds
it. -/
theorem verdict_eq_ok {a : α} (hl : op.expected ≠ .rreadlink) :
    op.verdict s frame = some (.ok a) ↔
      ∃ m, Frame.decode frame = .ok m ∧ m.tag = op.tag ∧
        op.reading s m.body = some (.ok a) := by
  constructor
  · intro h
    rw [verdict] at h
    by_cases ht : frameTag frame ≠ op.tag
    · rw [if_pos ht] at h
      cases h
    rw [if_neg ht] at h
    by_cases he : frameType frame = op.expected.id
    · rw [if_pos he, judge_of_ne hl, decoded] at h
      cases hd : Frame.decode frame with
      | error fault =>
        rw [hd] at h
        cases h
      | ok m =>
        rw [hd] at h
        obtain ⟨-, -, -, htag, -⟩ := Frame.header_of_decode hd
        exact ⟨m, rfl, htag.symm.trans (not_not.1 ht), h⟩
    · rw [if_neg he] at h
      split at h
      · split at h
        · cases h
        · split at h <;> cases h
      · cases h
  · intro h
    obtain ⟨m, hd, htag, hr⟩ := h
    obtain ⟨-, -, htype, htags, -⟩ := Frame.header_of_decode hd
    have he : frameType frame = op.expected.id := by rw [htype, type_of_reading hr]
    rw [verdict, if_neg (not_not.2 (htags.trans htag)), if_pos he, judge_of_ne hl, decoded, hd]
    exact hr

/-! ## Transcripts -/

theorem ofResponse_of_reading {b : Body} {e : Error} (h : op.reading s b = some (.error e)) :
    e.OfResponse := by
  cases op with
  | negotiate =>
    cases b with
    | rversion =>
      simp only [reading, Option.some.injEq] at h
      split at h
      · cases h
        exact .version _
      split at h
      · cases h
        exact .malformed (by simp [Fault.errno, Fault.kind])
      · cases h
    | _ => cases h
  | walk =>
    cases b with
    | rwalk =>
      simp only [reading, Option.some.injEq] at h
      split at h
      · cases h
        exact .malformed (by simp [Fault.errno, Fault.kind])
      split at h
      · cases h
        exact .server _
      · cases h
    | _ => cases h
  | read =>
    cases b with
    | rread =>
      simp only [reading, Option.some.injEq] at h
      split at h
      · cases h
        exact .malformed (by simp [Fault.errno, Fault.kind])
      · cases h
    | _ => cases h
  | _ => cases b <;> cases h

theorem ofResponse_of_judge {e : Error} (h : op.judge s frame = some (.error e)) :
    e.OfResponse := by
  by_cases hl : op.expected = .rreadlink
  · cases op with
    | readlink => exact ofResponse_of_boundedText (Option.some.inj h)
    | _ => cases hl
  · rw [judge_of_ne hl, decoded] at h
    cases hd : Frame.decode frame with
    | error fault =>
      rw [hd] at h
      cases h
      exact .malformed (Frame.errno_of_decode hd)
    | ok m =>
      rw [hd] at h
      exact ofResponse_of_reading h

/-- What is wrong with a response is not put down to anything else. -/
theorem ofResponse_of_verdict {e : Error} (h : op.verdict s frame = some (.error e)) :
    e.OfResponse := by
  rw [verdict] at h
  split at h
  · cases h
    exact .tag ..
  split at h
  · exact ofResponse_of_judge h
  split at h
  · split at h
    · cases h
      exact .tooLong ..
    split at h
    · cases h
      exact .unexpected ..
    · cases h
      exact .server _
  · cases h
    exact .unexpected ..

theorem isUnsent_of_sends {e : Error} (ha : op.vetted = .ok ()) (h : op.sends s = .error e) :
    e.isUnsent = true := by
  rw [sends, ha] at h
  cases hr : requestFrame s.msize { tag := op.tag, body := op.body s } (op.capacity s) with
  | error e' =>
    rw [hr] at h
    obtain rfl : e' = e := Except.error.inj h
    exact isUnsent_of_requestFrame (op.response_body s) hr
  | ok found =>
    rw [hr] at h
    cases h

/-- What an operation, with its result, adds to the transcript: nothing if its
request is refused, or else its request. There is a result only if there is an
answer that holds it. -/
inductive Told (s : Session) (op : Query α) (log : Wire) : Except Error α → Wire → Prop where
  | unsent {e : Error} : op.sends s = .error e → Told s op log (.error e) log
  | sent {r : Except Error α} {entry : Bytes × Bytes} {answer : Option Body} :
    Wire.exchanged? entry = some ((op.body s).known, answer) →
    (∀ e, r = .error e → e.isUnsent = false) →
    (op.expected ≠ .rreadlink → ∀ a, r = .ok a →
      ∃ b, answer = some b ∧ op.reading s b = some (.ok a)) →
    Told s op log r (entry :: log)

theorem Recorded.told {r : Except Error α} {log' : Wire} (h : op.Recorded s log r log')
    (hc : (op.body s).CountsHold) : op.Told s log r log' := by
  have sent {request heard : Bytes} (hf : op.sends s = .ok request) :
      Wire.exchanged? (request, heard) = some ((op.body s).known, Wire.answer? op.tag heard) := by
    have hd := decode_of_requestFrame (sends_eq_ok.1 hf).2 hc (op.payloadFits_body s)
    rw [Wire.exchanged?, hd]
  cases h with
  | unsent hf => exact .unsent hf
  | @answered request frame r hf hw hmost hr =>
    have hunsent (e : Error) (he : r = .error e) : e.isUnsent = false :=
      Error.isUnsent_of_isMisuse (ofResponse_of_verdict (he ▸ hr)).isMisuse
    refine .sent (sent hf) hunsent fun hl a ha => ?_
    obtain ⟨m, hd, htag, hreading⟩ := (verdict_eq_ok hl).1 (ha ▸ hr)
    exact ⟨m.body, by rw [Wire.answer?, hd]; exact if_pos htag, hreading⟩
  | @lost request bytes e hf hw he =>
    refine .sent (sent hf) (fun e' he' => ?_) fun _ a ha => by cases ha
    obtain rfl := Except.error.inj he'
    cases e with
    | invalidParameter => cases he
    | _ => rfl

theorem always_told (hc : (op.body s).CountsHold) :
    Client.Always Wire.Step op.perform s log fun r t log' =>
      t = op.leaves s r ∧ op.Told s log r log' :=
  always_recorded.mono fun _ _ _ h => ⟨h.1, h.2.told hc⟩

end Session.Query

/-- Shutting the stream down sends no request. -/
theorem Client.Always.shutdown {s : Session} {log : Wire} :
    Always Wire.Step Session.shutdown s log fun r t log' =>
      t = s ∧ log' = log ∧ ∀ e, r = .error e → e.isMisuse = false := by
  refine .ofExchange (.perform fun answer log' ⟨hfault, hlog⟩ => ⟨rfl, hlog, fun e he => ?_⟩)
  cases answer with
  | done => cases he
  | failed e' =>
    obtain ⟨fault, rfl⟩ := hfault e' rfl rfl
    cases he
    rfl
  | stalled =>
    cases he
    rfl

end NineP
