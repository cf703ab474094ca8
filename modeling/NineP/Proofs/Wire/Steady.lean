import NineP.Proofs.Wire.Carries
import NineP.Wire.Message

/-!
# Readers and more input

A reader takes its input from the front and looks no further than it has to. So
what it has made of its input stands, whatever comes behind: a value stays read,
and an error stays found, unless it was the input that came to an end too soon.

* `Reader.Steady`: the law, kept by each way to put readers together;
* `Reader.Steady.cut`: input that is read to its end is too short wherever it is
  cut;
* `Reader.Steady.body`, `Reader.Steady.message`: the law of messages, whatever
  the bytes.
-/

namespace NineP.Reader

/-- More input changes neither a value nor an error, unless there was too little
input. -/
structure Steady (r : Reader α) : Prop where
  ok {bs rest : Bytes} {a : α} (more : Bytes) :
    r bs = .ok (a, rest) → r (bs ++ more) = .ok (a, rest ++ more)
  error {bs : Bytes} {e : Fault} (more : Bytes) :
    r bs = .error e → e.kind = .unexpectedEnd ∨ r (bs ++ more) = .error e

namespace Steady

variable {r : Reader α}

/-- Input that is read to its end is too short if it is cut before its end. -/
theorem cut (h : r.Steady) {front back : Bytes} {a : α} (hr : r (front ++ back) = .ok (a, []))
    (hb : back ≠ []) : ∃ e, r front = .error e ∧ e.kind = .unexpectedEnd := by
  cases hf : r front with
  | ok found =>
    have hmore := h.ok back hf
    rw [hr] at hmore
    obtain ⟨-, hnil⟩ := Prod.mk.inj (Except.ok.inj hmore)
    exact absurd (List.append_eq_nil_iff.1 hnil.symm).2 hb
  | error e =>
    refine ⟨e, rfl, (h.error back hf).resolve_right fun hmore => ?_⟩
    rw [hr] at hmore
    cases hmore

/-! ## Composition -/

theorem pure (a : α) : Steady (Pure.pure a : Reader α) where
  ok more h := by
    obtain ⟨rfl, rfl⟩ := pure_eq_ok.1 h
    rfl
  error more h := by cases h

theorem throw (e : Fault) : Steady (throw e : Reader α) where
  ok more h := by cases h
  error more h := .inr h

/-- A result that is found without input. -/
theorem lift (x : Except Fault α) : Steady (StateT.lift x : Reader α) := by
  cases x with
  | ok a => exact pure a
  | error e => exact throw e

theorem bind {f : α → Reader β} (hr : r.Steady) (hf : ∀ a, (f a).Steady) : (r >>= f).Steady where
  ok more h := by
    obtain ⟨a, mid, ha, hb⟩ := bind_eq_ok.1 h
    exact bind_eq_ok.2 ⟨a, mid ++ more, hr.ok more ha, (hf a).ok more hb⟩
  error {bs e} more h := by
    rw [bind_apply] at h ⊢
    cases ha : r bs with
    | error e' =>
      rw [ha] at h
      obtain rfl := Except.error.inj h
      exact (hr.error more ha).imp_right fun hmore => by rw [hmore]; rfl
    | ok found =>
      rw [ha] at h
      rw [hr.ok more ha]
      exact (hf found.1).error more h

theorem map (hr : r.Steady) (f : α → β) : (f <$> r).Steady := by
  rw [map_eq_pure_bind]
  exact hr.bind fun a => pure (f a)

theorem take {n : Nat} {short : Fault} (hs : short.kind = .unexpectedEnd) :
    (Reader.take n short).Steady where
  ok more h := by
    obtain ⟨rfl, hn⟩ := take_eq_ok.1 h
    exact take_eq_ok.2 ⟨List.append_assoc .., hn⟩
  error {bs e} more h := by
    rw [Reader.take] at h
    cases hx : splitBytes? n bs with
    | some found =>
      rw [hx] at h
      cases h
    | none =>
      rw [hx] at h
      obtain rfl := Except.error.inj h
      exact .inl hs

theorem times (hr : r.Steady) (n : Nat) (acc : List α) : (Reader.times r n acc).Steady := by
  induction n generalizing acc with
  | zero => exact pure acc.reverse
  | succ n ih => exact hr.bind fun x => ih (x :: acc)

/-! ## Words, counted lists and counted bytes -/

theorem word {width : Nat} {toNat : α → Nat} {ofNat : Nat → α} :
    (Codec.word width toNat ofNat).decode.Steady :=
  (take rfl).bind fun bs => pure (ofNat (LittleEndian.decode bs))

theorem u8 : Codec.u8.decode.Steady := word

theorem u16 : Codec.u16.decode.Steady := word

theorem u32 : Codec.u32.decode.Steady := word

theorem u64 : Codec.u64.decode.Steady := word

theorem pair {c : Codec α} {d : Codec β} (hc : c.decode.Steady) (hd : d.decode.Steady) :
    (c.pair d).decode.Steady :=
  hc.bind fun x => hd.bind fun y => pure (x, y)

theorem imap {c : Codec α} (hc : c.decode.Steady) (view : β → α) (build : α → β) :
    (c.imap view build).decode.Steady :=
  hc.map build

theorem vector {c : Codec α} (hc : c.decode.Steady) : c.vector.decode.Steady :=
  u16.bind fun n => hc.times n.toNat []

theorem counted (n : Nat) : (Codec.counted n).Steady := take rfl

theorem payload : Codec.payload.decode.Steady := u32.bind fun n => counted n.toNat

theorem decodeText (n : Nat) : (Codec.decodeText n).Steady := by
  refine (counted n).bind fun bs => ?_
  split
  · exact pure _
  · exact throw _

theorem text : Codec.text.decode.Steady := u16.bind fun n => decodeText n.toNat

/-! ## The data in messages -/

theorem qid : Codec.qid.decode.Steady := (u8.pair (u32.pair u64)).imap _ _

theorem time : Codec.time.decode.Steady := (u64.pair u64).imap _ _

theorem mask : Codec.mask.decode.Steady := u64.imap _ _

theorem stat : Codec.stat.decode.Steady :=
  (u32.pair (u32.pair (u32.pair (u64.pair (u64.pair (u64.pair (u64.pair (u64.pair
    (time.pair (time.pair time)))))))))).imap _ _

theorem attr : Codec.attr.decode.Steady :=
  (mask.pair (qid.pair (stat.pair (time.pair (u64.pair u64))))).imap _ _

theorem fsStat : Codec.fsStat.decode.Steady :=
  (u32.pair (u32.pair (u64.pair (u64.pair (u64.pair (u64.pair (u64.pair (u64.pair
    u32)))))))).imap _ _

theorem dirEntry : Codec.dirEntry.decode.Steady :=
  (qid.pair (u64.pair (u8.pair text))).imap _ _

/-- The entries are read from the bytes that were counted, and from no others. -/
theorem listing : Codec.listing.decode.Steady :=
  payload.bind fun bs => lift (Codec.dirEntry.decode.exhaust bs)

/-! ## Messages -/

theorem body (type : MessageType) : (Codec.decodeBody type).Steady := by
  cases type with
  | tlerror => exact throw _
  | rlerror => exact u32.map _
  | tstatfs => exact u32.map _
  | rstatfs => exact fsStat.map _
  | tlopen => exact (u32.pair u32).map _
  | rlopen => exact (qid.pair u32).map _
  | treadlink => exact u32.map _
  | rreadlink => exact text.map _
  | tgetattr => exact (u32.pair mask).map _
  | rgetattr => exact attr.map _
  | treaddir => exact (u32.pair (u64.pair u32)).map _
  | rreaddir => exact listing.map _
  | tattach => exact (u32.pair (u32.pair (text.pair text))).map _
  | rattach => exact qid.map _
  | tversion => exact (u32.pair text).map _
  | rversion => exact (u32.pair text).map _
  | twalk => exact (u32.pair (u32.pair text.vector)).map _
  | rwalk => exact qid.vector.map _
  | tread => exact (u32.pair (u64.pair u32)).map _
  | rread => exact payload.map _
  | tclunk => exact u32.map _
  | rclunk => exact pure _

theorem message : Codec.message.decode.Steady := by
  refine u8.bind fun id => u16.bind fun tag => ?_
  split
  · exact throw _
  · exact (body _).bind fun b => pure _

end Steady

end NineP.Reader
