import NineP.Proofs.Dialogue.Runs

/-!
# What goes over the wire

Whatever a server sends and however a stream fails, what has been sent and what
has been received can be written down. Of the world nothing else is assumed than
that its failures are failures of the transport (`Wire.Step`):

* `Exchange.Always.heard`: an exchange has a result if and only if what was
  received after its request is a whole frame that fits, which is then the
  result.
-/

namespace NineP

/-- The requests that were sent, each with the bytes that were received after it
and before the next; the last request stands first. -/
abbrev Wire := List (Bytes × Bytes)

/-- Whether a call says where to connect from and to. -/
def Call.directs : Call → Bool
  | .configure _ => true
  | _ => false

namespace Wire

/-- The record once more bytes have been received. -/
def hear (bytes : Bytes) : Wire → Wire
  | [] => []
  | (request, heard) :: log => (request, heard ++ bytes) :: log

/-- The record after a call and its answer. A request counts as sent whatever
comes of sending it. -/
def record (log : Wire) : Call → Answer → Wire
  | .transmit request _, _ => (request, []) :: log
  | .receive most, .done bytes => log.hear (bytes.take most)
  | _, _ => log

/-- Any answer may come to a call, but a failure is one of the transport, except
that a transport may also refuse to be directed elsewhere. -/
def Step (log : Wire) (c : Call) (answer : Answer) (log' : Wire) : Prop :=
  (∀ e, answer = .failed e → c.directs = false → ∃ fault, e = .transport fault) ∧
    log' = log.record c answer

/-- Any call may be done. -/
theorem Step.done (log : Wire) (c : Call) (bytes : Bytes) :
    Step log c (.done bytes) (log.record c (.done bytes)) :=
  ⟨fun _ h => (by cases h), rfl⟩

theorem Step.total (log : Wire) (c : Call) : ∃ answer log', Step log c answer log' :=
  ⟨_, _, .done log c []⟩

/-- A frame whose size is its length, and no shorter than a header. -/
def Whole (frame : Bytes) : Prop :=
  headerSize ≤ frame.length ∧ LittleEndian.decode (frame.take 4) = frame.length

theorem not_whole_of_lt {bytes : Bytes} (h : bytes.length < headerSize) : ¬ Whole bytes :=
  fun hw => Nat.not_lt.2 hw.1 h

end Wire

/-- Whether an error is found while a response is received. -/
def Error.isLost : Error → Bool
  | .transport _ | .timedOut | .bufferTooSmall .. | .decode _ => true
  | _ => false

/-- What an exchange comes to, and what then stands in the record behind its
request. -/
inductive Wire.Heard (request : Bytes) (capacity : Nat) (log : Wire) :
    Except Error Bytes → Wire → Prop where
  | whole {frame : Bytes} : Whole frame → frame.length ≤ capacity →
    Heard request capacity log (.ok frame) ((request, frame) :: log)
  | lost {bytes : Bytes} {e : Error} : ¬ Whole bytes → e.isLost = true →
    Heard request capacity log (.error e) ((request, bytes) :: log)

namespace Exchange.Always

variable {log : Wire} {request front : Bytes}

theorem heard_receive {most : Nat} :
    Always Wire.Step (Exchange.receive most) ((request, front) :: log) fun r log' =>
      (∃ bytes, r = .ok bytes ∧ bytes.length ≤ most ∧ log' = (request, front ++ bytes) :: log) ∨
      (∃ e, r = .error e ∧ e.isLost = true ∧ log' = (request, front) :: log) := by
  show Always _ (Exchange.call _ >>= fun bytes => Pure.pure (bytes.take most)) _ _
  rw [← map_eq_pure_bind]
  refine .map (.call fun answer log' ⟨hfault, hlog'⟩ => ?_)
  cases answer with
  | done bytes => exact .inl ⟨bytes.take most, rfl, List.length_take_le .., hlog'⟩
  | failed e =>
    obtain ⟨fault, rfl⟩ := hfault e rfl rfl
    exact .inr ⟨_, rfl, rfl, hlog'⟩
  | stalled => exact .inr ⟨_, rfl, rfl, hlog'⟩

/-- Either all that is wanted is received, or less than that. -/
theorem heard_collectFrom {fuel wanted : Nat} {acc : Bytes} :
    Always Wire.Step (Exchange.collectFrom fuel wanted acc) ((request, front) :: log) fun r log' =>
      ∃ bytes, log' = (request, front ++ bytes) :: log ∧
        (r = .ok (acc.reverse ++ bytes) ∧ bytes.length = wanted ∨
          ∃ e, r = .error e ∧ e.isLost = true ∧ bytes.length < wanted) := by
  induction fuel generalizing wanted acc front with
  | zero =>
    cases wanted with
    | zero => exact .pure ⟨[], by rw [List.append_nil], .inl ⟨by rw [List.append_nil], rfl⟩⟩
    | succ wanted =>
      exact .throw ⟨[], by rw [List.append_nil], .inr ⟨_, rfl, rfl, Nat.succ_pos wanted⟩⟩
  | succ fuel ih =>
    cases wanted with
    | zero => exact .pure ⟨[], by rw [List.append_nil], .inl ⟨by rw [List.append_nil], rfl⟩⟩
    | succ wanted =>
      refine heard_receive.bind (fun bytes log' h => ?_) fun e log' h => ?_
      · obtain ⟨_, hb, hlen, rfl⟩ | ⟨_, hb, -⟩ := h
        · obtain rfl := Except.ok.inj hb
          show Always _ (if bytes.isEmpty then _ else _) _ _
          by_cases he : bytes.isEmpty = true
          · rw [if_pos he]
            refine .throw ⟨bytes, rfl, .inr ⟨_, rfl, rfl, ?_⟩⟩
            rw [List.isEmpty_iff_length_eq_zero.1 he]
            exact Nat.succ_pos wanted
          · rw [if_neg he]
            refine ih.mono fun r log' h => ?_
            obtain ⟨more, rfl, h⟩ := h
            refine ⟨bytes ++ more, by rw [List.append_assoc], ?_⟩
            rw [List.length_append]
            rcases h with ⟨rfl, hmore⟩ | ⟨e, rfl, he, hmore⟩
            · refine .inl ⟨?_, by omega⟩
              rw [List.reverseAux_eq, List.reverse_append, List.reverse_reverse, List.append_assoc]
            · exact .inr ⟨e, rfl, he, by omega⟩
        · cases hb
      · obtain ⟨_, hb, -⟩ | ⟨_, hb, he, rfl⟩ := h
        · cases hb
        · obtain rfl := Except.error.inj hb
          exact ⟨[], by rw [List.append_nil], .inr ⟨e, rfl, he, Nat.succ_pos wanted⟩⟩

/-- Whatever comes of sending a request, nothing has been received after it. -/
theorem heard_transmit {limit : Option UInt64} :
    Always Wire.Step (Exchange.perform (.transmit request limit)) log fun r log' =>
      log' = (request, []) :: log ∧ ∀ e, r = .error e → e.isLost = true := by
  refine .perform fun answer log' ⟨hfault, hlog'⟩ => ⟨hlog', fun e he => ?_⟩
  cases answer with
  | done => cases he
  | failed e' =>
    obtain ⟨fault, rfl⟩ := hfault e' rfl rfl
    cases he
    rfl
  | stalled =>
    cases he
    rfl

/-- What is received behind a size field makes it a whole frame, unless it is
less than the size says. -/
theorem heard_rest {capacity : Nat} {field : Bytes} (hfield : field.length = Frame.sizeWidth)
    (hs : headerSize ≤ LittleEndian.decode field) (hc : LittleEndian.decode field ≤ capacity) :
    Always Wire.Step
      (Exchange.collect (LittleEndian.decode field - Frame.sizeWidth) >>= fun rest =>
        Pure.pure (field ++ rest))
      ((request, field) :: log) (Wire.Heard request capacity log) := by
  have htake (bytes : Bytes) : (field ++ bytes).take 4 = field := List.take_left' hfield
  have hwidth : Frame.sizeWidth ≤ LittleEndian.decode field := Nat.le_trans (by decide) hs
  refine heard_collectFrom.bind (fun found log' h => ?_) fun e log' h => ?_
  · obtain ⟨rest, rfl, ⟨hb, hrest⟩ | ⟨_, hb, -⟩⟩ := h
    · obtain rfl : rest = found := (Except.ok.inj hb).symm
      have hlen : (field ++ rest).length = LittleEndian.decode field := by
        rw [List.length_append, hfield, hrest, Nat.add_sub_of_le hwidth]
      refine .pure (.whole ⟨?_, ?_⟩ ?_)
      · rwa [hlen]
      · rw [htake, hlen]
      · rwa [hlen]
    · cases hb
  · obtain ⟨bytes, rfl, ⟨hb, -⟩ | ⟨_, hb, he, hless⟩⟩ := h
    · cases hb
    · obtain rfl := Except.error.inj hb
      refine .lost (fun hw => ?_) he
      have hlen := hw.2
      rw [htake, List.length_append] at hlen
      omega

/-- The result of an exchange is what was received after its request, if that is
a whole frame; then it fits. If it is not, then there is no result. -/
theorem heard {capacity : Nat} {limit : Option UInt64} :
    Always Wire.Step (NineP.exchange request capacity limit) log
      (Wire.Heard request capacity log) := by
  refine heard_transmit.bind (fun _ log' h => ?_) fun e log' h => ?_
  · obtain ⟨rfl, -⟩ := h
    refine heard_collectFrom.bind (fun found log' h => ?_) fun e log' h => ?_
    · obtain ⟨field, rfl, ⟨hb, hfield⟩ | ⟨_, hb, -⟩⟩ := h
      · obtain rfl : field = found := (Except.ok.inj hb).symm
        have hshort : field.length < headerSize := by
          rw [hfield]
          decide
        refine .relies (.refuse (fun _ => .lost (Wire.not_whole_of_lt hshort) rfl) fun hc => ?_)
        refine .refuse (fun _ => .lost (Wire.not_whole_of_lt hshort) rfl) fun hs => ?_
        exact heard_rest hfield (Nat.not_lt.1 hs) (Nat.not_lt.1 hc)
      · cases hb
    · obtain ⟨bytes, rfl, ⟨hb, -⟩ | ⟨_, hb, he, hshort⟩⟩ := h
      · cases hb
      · obtain rfl := Except.error.inj hb
        exact .lost (Wire.not_whole_of_lt (Nat.lt_trans hshort (by decide))) he
  · obtain ⟨rfl, he⟩ := h
    exact .lost (Wire.not_whole_of_lt (by decide)) (he e rfl)

end Exchange.Always

end NineP
