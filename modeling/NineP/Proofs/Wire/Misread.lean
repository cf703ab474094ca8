import NineP.Proofs.Wire.Carries
import NineP.Frame

/-!
# How reading fails

Bytes that are not what a reader reads are too few, not a text, or of no message. A
reader of messages knows no other failure:

* `Fault.Misread`: these failures;
* `Reader.Plain`: a reader that fails only so, kept by each way to put readers together;
* `Reader.Plain.body`, `Reader.Plain.message`: the readers of messages;
* `Frame.misread_of_decode`: a frame is also refused for its size and for bytes that are
  left over.
-/

namespace NineP

/-- The bytes are not what is read. -/
inductive Fault.Misread : Fault → Prop where
  | endOfInput : Misread .endOfInput
  | countOverrun (count : Nat) : Misread (.countOverrun count)
  | invalidText : Misread .invalidText
  | unknownMessage : Misread .unknownMessage

namespace Reader

/-- A reader that fails only because the bytes are not what it reads. -/
structure Plain (r : Reader α) : Prop where
  misread {bs : Bytes} {e : Fault} : r bs = .error e → e.Misread

namespace Plain

variable {r : Reader α}

/-! ## Composition -/

theorem pure (a : α) : Plain (Pure.pure a : Reader α) := ⟨fun h => by cases h⟩

theorem throw {e : Fault} (he : e.Misread) : Plain (throw e : Reader α) :=
  ⟨fun h => Except.error.inj h ▸ he⟩

/-- A result that is found without input. -/
theorem lift {x : Except Fault α} (hx : ∀ e, x = .error e → e.Misread) :
    Plain (StateT.lift x : Reader α) := by
  cases x with
  | ok a => exact pure a
  | error e => exact throw (hx e rfl)

theorem bind {f : α → Reader β} (hr : r.Plain) (hf : ∀ a, (f a).Plain) : (r >>= f).Plain := by
  refine ⟨fun {bs e} h => ?_⟩
  rw [bind_apply] at h
  cases ha : r bs with
  | error e' =>
    rw [ha] at h
    exact Except.error.inj h ▸ hr.misread ha
  | ok found =>
    rw [ha] at h
    exact (hf found.1).misread h

theorem map (hr : r.Plain) (f : α → β) : (f <$> r).Plain := by
  rw [map_eq_pure_bind]
  exact hr.bind fun a => pure (f a)

theorem take {n : Nat} {short : Fault} (hs : short.Misread) : (Reader.take n short).Plain := by
  refine ⟨fun {bs e} h => ?_⟩
  rw [Reader.take] at h
  split at h
  · cases h
  · exact Except.error.inj h ▸ hs

theorem times (hr : r.Plain) (n : Nat) (acc : List α) : (Reader.times r n acc).Plain := by
  induction n generalizing acc with
  | zero => exact pure acc.reverse
  | succ n ih => exact hr.bind fun x => ih (x :: acc)

theorem exhaust (hr : r.Plain) {bs : Bytes} {e : Fault} (h : r.exhaust bs = .error e) :
    e.Misread := by
  rw [Reader.exhaust] at h
  generalize bs.length = fuel at h
  generalize [] = acc at h
  induction fuel generalizing bs acc with
  | zero =>
    cases bs with
    | nil => cases h
    | cons => exact Except.error.inj h ▸ .endOfInput
  | succ fuel ih =>
    cases bs with
    | nil => cases h
    | cons b bs =>
      rw [exhaust.go] at h
      cases hx : r (b :: bs) with
      | error e' =>
        rw [hx] at h
        exact Except.error.inj h ▸ hr.misread hx
      | ok found =>
        rw [hx] at h
        exact ih _ h

/-! ## Words, counted lists and counted bytes -/

theorem word {width : Nat} {toNat : α → Nat} {ofNat : Nat → α} :
    (Codec.word width toNat ofNat).decode.Plain :=
  (take .endOfInput).bind fun bs => pure (ofNat (LittleEndian.decode bs))

theorem pair {c : Codec α} {d : Codec β} (hc : c.decode.Plain) (hd : d.decode.Plain) :
    (c.pair d).decode.Plain :=
  hc.bind fun x => hd.bind fun y => pure (x, y)

theorem imap {c : Codec α} (hc : c.decode.Plain) (view : β → α) (build : α → β) :
    (c.imap view build).decode.Plain :=
  hc.map build

theorem vector {c : Codec α} (hc : c.decode.Plain) : c.vector.decode.Plain :=
  word.bind fun n => hc.times n.toNat []

theorem counted (n : Nat) : (Codec.counted n).Plain := take (.countOverrun n)

theorem payload : Codec.payload.decode.Plain := word.bind fun n => counted n.toNat

theorem decodeText (n : Nat) : (Codec.decodeText n).Plain := by
  refine (counted n).bind fun bs => ?_
  split
  · exact pure _
  · exact throw .invalidText

theorem text : Codec.text.decode.Plain := word.bind fun n => decodeText n.toNat

/-! ## Messages -/

theorem qid : Codec.qid.decode.Plain := (word.pair (word.pair word)).imap _ _

theorem time : Codec.time.decode.Plain := (word.pair word).imap _ _

theorem mask : Codec.mask.decode.Plain := word.imap _ _

theorem stat : Codec.stat.decode.Plain :=
  (word.pair (word.pair (word.pair (word.pair (word.pair (word.pair (word.pair (word.pair
    (time.pair (time.pair time)))))))))).imap _ _

theorem attr : Codec.attr.decode.Plain :=
  (mask.pair (qid.pair (stat.pair (time.pair (word.pair word))))).imap _ _

theorem fsStat : Codec.fsStat.decode.Plain :=
  (word.pair (word.pair (word.pair (word.pair (word.pair (word.pair (word.pair (word.pair
    word)))))))).imap _ _

theorem dirEntry : Codec.dirEntry.decode.Plain :=
  (qid.pair (word.pair (word.pair text))).imap _ _

theorem listing : Codec.listing.decode.Plain :=
  payload.bind fun _ => lift fun _ h => dirEntry.exhaust h

theorem body (type : MessageType) : (Codec.decodeBody type).Plain := by
  cases type with
  | tlerror => exact throw .unknownMessage
  | rlerror | tstatfs | treadlink | tclunk => exact word.map _
  | rstatfs => exact fsStat.map _
  | tlopen => exact (word.pair word).map _
  | rlopen => exact (qid.pair word).map _
  | rreadlink => exact text.map _
  | tgetattr => exact (word.pair mask).map _
  | rgetattr => exact attr.map _
  | treaddir | tread => exact (word.pair (word.pair word)).map _
  | rreaddir => exact listing.map _
  | tattach => exact (word.pair (word.pair (text.pair text))).map _
  | rattach => exact qid.map _
  | tversion | rversion => exact (word.pair text).map _
  | twalk => exact (word.pair (word.pair text.vector)).map _
  | rwalk => exact qid.vector.map _
  | rread => exact payload.map _
  | rclunk => exact pure _

theorem message : Codec.message.decode.Plain := by
  refine word.bind fun id => word.bind fun tag => ?_
  split
  · exact throw .unknownMessage
  · exact (body _).bind fun b => pure _

end Plain

end Reader

/-- Why a frame is refused. -/
theorem Frame.misread_of_decode {frame : Bytes} {e : Fault} (h : Frame.decode frame = .error e) :
    e.Misread ∨ (∃ size, e = .sizeMismatch size frame.length) ∨ e = .trailingBytes := by
  have h : (Codec.u32.decode frame >>= _ : Except Fault Message) = .error e := h
  cases hu : Codec.u32.decode frame with
  | error e' =>
    rw [hu] at h
    exact .inl (Except.error.inj h ▸ Reader.Plain.word.misread hu)
  | ok found =>
    obtain ⟨size, rest⟩ := found
    rw [hu] at h
    have h : (if size.toNat ≠ frame.length then _ else _ : Except Fault Message) = .error e := h
    split at h
    · exact .inr (.inl ⟨size.toNat, (Except.error.inj h).symm⟩)
    have h : (Codec.message.decode rest >>= _ : Except Fault Message) = .error e := h
    cases hm : Codec.message.decode rest with
    | error e' =>
      rw [hm] at h
      exact .inl (Except.error.inj h ▸ Reader.Plain.message.misread hm)
    | ok found =>
      obtain ⟨m, left⟩ := found
      rw [hm] at h
      have h : (if left.isEmpty then .ok m else .error .trailingBytes : Except Fault Message) =
          .error e := h
      split at h
      · cases h
      · exact .inr (.inr (Except.error.inj h).symm)

end NineP
