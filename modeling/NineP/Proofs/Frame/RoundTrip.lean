import NineP.Frame
import NineP.Proofs.Wire.Message

/-!
# Frames that are read back

Which messages have a frame, and what a receiver makes of it:

* `Frame.encode_eq_ok`, `Frame.encode_eq_error`: a message whose texts are short
  enough has a frame, and any other is refused;
* `Frame.decode_wrap`: a frame is read as the message in it, if that ends with
  the frame;
* `Frame.round_trip`: the frame of a message is read as that message, unless the
  count of a list wraps; then it is refused for the bytes behind the counted
  elements.
-/

namespace NineP.Frame

/-- The largest message that a frame can hold. -/
def maxSize : Nat := 2 ^ 32 - 5

theorem wrap_body {data : Bytes} (h : data.length ≤ maxSize) :
    wrap .body (UInt32.size - 1) data =
      .ok (LittleEndian.encode sizeWidth (data.length + 4) ++ data) :=
  if_neg (Nat.not_lt.2 h)

/-- Behind the right size there has to be a message and nothing else. -/
theorem decode_of_size {frame rest : Bytes} {size : UInt32}
    (h : Codec.u32.decode frame = .ok (size, rest)) (hs : size.toNat = frame.length) :
    decode frame = Codec.message.decode rest >>= fun (m, rest) =>
      if rest.isEmpty then .ok m else .error .trailingBytes := by
  rw [decode]
  show (Codec.u32.decode frame >>= _ : Except Fault Message) = _
  rw [h]
  show (if size.toNat ≠ frame.length then _ else _ : Except Fault Message) = _
  rw [if_neg fun hne => hne hs]
  rfl

/-- A frame holds a message, or a message and more bytes, which are refused. -/
theorem decode_wrap {data extra : Bytes} {m : Message} (h : data.length ≤ maxSize)
    (hr : Codec.message.decode.Reads data m extra) :
    decode (LittleEndian.encode sizeWidth (data.length + 4) ++ data) =
      if extra = [] then .ok m else .error .trailingBytes := by
  have hlt : data.length + 4 < 2 ^ 32 := by
    simp only [maxSize] at h
    omega
  have hsize : Codec.u32.decode (LittleEndian.encode sizeWidth (data.length + 4) ++ data) =
      .ok (UInt32.ofNat (data.length + 4), data) := Reader.Reads.u32 hlt data
  have hm : Codec.message.decode data = .ok (m, extra) := by
    have := hr []
    rwa [List.append_nil, List.append_nil] at this
  rw [decode_of_size hsize, hm]
  · show (if extra.isEmpty then _ else _) = _
    simp only [List.isEmpty_iff]
  · rw [UInt32.toNat_ofNat_of_lt' hlt, List.length_append, LittleEndian.length_encode, sizeWidth,
      Nat.add_comm]

theorem payloadFits_of_size {m : Message} (h : m.size ≤ maxSize) : m.body.PayloadFits := by
  apply Body.payloadFits_of_size
  simp only [maxSize, Message.size] at h
  simp only [UInt32.size]
  omega

/-- What a message is written as goes behind its size. -/
theorem encode_of_writes {m : Message} {n : Nat} {data : Bytes}
    (hw : (Codec.message.encode m).Writes n data) :
    encode m = wrap .body (UInt32.size - 1) data := by
  rw [encode, hw.fits (Sink.fits_of_growing rfl data)]
  show wrap .body (UInt32.size - 1) (Sink.growing.push data).written = _
  rw [Sink.written_push_growing]

theorem encode_eq_ok {m : Message} (h : m.size ≤ maxSize)
    (hf : ∀ s ∈ m.body.texts, s.utf8ByteSize ≤ Codec.maxTextSize) :
    ∃ frame, encode m = .ok frame ∧ frame.length = 4 + m.size ∧
      frame.take 4 = LittleEndian.encode 4 frame.length ∧
      decode frame = if m.body.surplus = 0 then .ok { m with body := m.body.counted }
        else .error .trailingBytes := by
  obtain ⟨data, extra, hw, hn, hr, he⟩ := (Carries.message (payloadFits_of_size h)).writes hf
  have hd : data.length ≤ maxSize := hn ▸ h
  refine ⟨LittleEndian.encode sizeWidth (data.length + 4) ++ data, ?_, ?_, ?_, ?_⟩
  · rw [encode_of_writes hw, wrap_body hd]
  · rw [List.length_append, LittleEndian.length_encode, sizeWidth, hn]
  · simp only [sizeWidth, List.length_append, LittleEndian.length_encode, Nat.add_comm 4]
    exact List.take_left' (LittleEndian.length_encode ..)
  · simp only [decode_wrap hd hr, ← he, List.length_eq_zero_iff]

theorem encode_eq_error {m : Message} (h : m.body.PayloadFits)
    (hf : ¬ ∀ s ∈ m.body.texts, s.utf8ByteSize ≤ Codec.maxTextSize) :
    encode m = .error .textTooLong := by
  obtain ⟨e, t, hr, he⟩ := (Carries.message h).refuses hf .growing
  rw [encode, hr, he rfl]

/-- Only a message that a frame can hold, with texts that fit, has a frame. -/
theorem fits_of_encode {m : Message} {frame : Bytes} (h : m.body.PayloadFits)
    (he : encode m = .ok frame) :
    m.size ≤ maxSize ∧ ∀ s ∈ m.body.texts, s.utf8ByteSize ≤ Codec.maxTextSize := by
  by_cases hf : ∀ s ∈ m.body.texts, s.utf8ByteSize ≤ Codec.maxTextSize
  · obtain ⟨data, extra, hw, hn, -⟩ := (Carries.message h).writes hf
    refine ⟨?_, hf⟩
    by_cases hd : data.length ≤ maxSize
    · exact hn ▸ hd
    · have hlong : wrap .body (UInt32.size - 1) data = .error .bodyTooBig :=
        if_pos (Nat.not_le.1 hd)
      rw [encode_of_writes hw, hlong] at he
      cases he
  · rw [encode_eq_error h hf] at he
    cases he

/-- The frame of a message that a frame can hold: there is one exactly if every
text fits its count. It begins with its own length, and it is read as the
message, attribute groups without a meaning aside, unless it has a list of more
elements than are counted; that is refused, for the bytes behind them. -/
theorem round_trip (m : Message) (h : m.size ≤ maxSize) :
    ((∃ frame, encode m = .ok frame) ↔ ∀ s ∈ m.body.texts, s.utf8ByteSize ≤ 65535) ∧
    (∀ fault, encode m = .error fault → fault.kind = .invalidInput) ∧
    ∀ frame, encode m = .ok frame →
      frame.length = 4 + m.size ∧ LittleEndian.decode (frame.take 4) = frame.length ∧
      (m.body.CountsHold → decode frame = .ok m.known) ∧
      (¬ m.body.CountsHold → ∃ fault, decode frame = .error fault ∧ fault = .trailingBytes ∧
        fault.kind = .invalidData) ∧
      ∀ m', decode frame = .ok m' → m' = m.known := by
  by_cases hf : ∀ s ∈ m.body.texts, s.utf8ByteSize ≤ Codec.maxTextSize
  · obtain ⟨frame, he, hn, hp, hd⟩ := encode_eq_ok h hf
    refine ⟨⟨fun _ => hf, fun _ => ⟨frame, he⟩⟩, fun fault hfault => ?_, fun frame' hframe => ?_⟩
    · rw [he] at hfault
      cases hfault
    obtain rfl : frame = frame' := Except.ok.inj (he.symm.trans hframe)
    have hlen : LittleEndian.decode (frame.take 4) = frame.length := by
      rw [hp, LittleEndian.decode_encode]
      simp only [maxSize] at h
      show frame.length < 2 ^ 32
      omega
    refine ⟨hn, hlen, fun hc => ?_, fun hc => ?_, fun m' hm' => ?_⟩
    · obtain ⟨hk, hs⟩ := Body.counted_of_countsHold hc
      rw [hd, if_pos hs, hk, Message.known]
    · rw [hd, if_neg (Nat.pos_iff_ne_zero.1 (Body.surplus_pos hc))]
      exact ⟨_, rfl, rfl, rfl⟩
    · rw [hd] at hm'
      by_cases hc : m.body.CountsHold
      · obtain ⟨hk, hs⟩ := Body.counted_of_countsHold hc
        rw [if_pos hs, hk] at hm'
        exact (Except.ok.inj hm').symm
      · rw [if_neg (Nat.pos_iff_ne_zero.1 (Body.surplus_pos hc))] at hm'
        cases hm'
  · have he := encode_eq_error (payloadFits_of_size h) hf
    refine ⟨⟨fun ⟨frame, hframe⟩ => ?_, fun hf' => absurd hf' hf⟩, fun fault hfault => ?_,
      fun frame hframe => ?_⟩
    · rw [he] at hframe
      cases hframe
    · rw [he] at hfault
      cases hfault
      rfl
    · rw [he] at hframe
      cases hframe

/-- A request for attribute groups, one of which has no meaning. -/
theorem round_trip_tgetattr :
    (Message.mk 1 (.tgetattr 2 ⟨0x4001⟩)).size ≤ maxSize ∧
      ∃ frame, encode ⟨1, .tgetattr 2 ⟨0x4001⟩⟩ = .ok frame ∧
        decode frame = .ok ⟨1, .tgetattr 2 ⟨1⟩⟩ := by
  have h : (Message.mk 1 (.tgetattr 2 ⟨0x4001⟩)).size ≤ maxSize := by decide
  obtain ⟨hf, -, hd⟩ := round_trip _ h
  obtain ⟨frame, he⟩ := hf.2 (by simp [Body.texts])
  exact ⟨h, frame, he, (hd frame he).2.2.1 trivial⟩

end NineP.Frame
