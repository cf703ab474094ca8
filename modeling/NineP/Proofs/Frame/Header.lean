import NineP.Proofs.Frame.RoundTrip
import NineP.Session

/-!
# Headers of frames

The size, the type and the tag of a frame are read off its first bytes, without
decoding the rest. They are those of the message in the frame:

* `Frame.header_of_decode`: for every frame that is decoded;
* `Frame.header_of_encode`: for every frame that was encoded.
-/

namespace NineP

/-- A body is read as one of its type. -/
theorem Codec.type_of_decodeBody {type : MessageType} {bs rest : Bytes} {b : Body}
    (h : decodeBody type bs = .ok (b, rest)) : b.type = type := by
  cases type with
  | tlerror => cases h
  | rclunk =>
    obtain ⟨rfl, -⟩ := Reader.pure_eq_ok.1 h
    rfl
  | _ =>
    obtain ⟨a, -, rfl⟩ := Reader.map_eq_ok.1 h
    rfl

namespace Frame

/-- What is read of a message: its type, its tag and a body of its type. -/
theorem message_eq_ok {bs rest : Bytes} {m : Message}
    (h : Codec.message.decode bs = .ok (m, rest)) :
    ∃ mid mid', Codec.u8.decode bs = .ok (m.body.type.id, mid) ∧
      Codec.u16.decode mid = .ok (m.tag, mid') ∧
      Codec.decodeBody m.body.type mid' = .ok (m.body, rest) := by
  obtain ⟨id, mid, hid, h⟩ := Reader.bind_eq_ok.1 h
  obtain ⟨tag, mid', htag, h⟩ := Reader.bind_eq_ok.1 h
  cases ht : MessageType.ofId? id with
  | none =>
    rw [ht] at h
    cases h
  | some type =>
    rw [ht] at h
    obtain ⟨body, mid'', hbody, h⟩ := Reader.bind_eq_ok.1 h
    obtain ⟨rfl, rfl⟩ := Reader.pure_eq_ok.1 h
    have htype := Codec.type_of_decodeBody hbody
    refine ⟨mid, mid', ?_, htag, ?_⟩
    · rw [hid, htype, MessageType.id_of_ofId? ht]
    · rw [htype]
      exact hbody

/-- A frame is a size, which is its length, and a message. -/
theorem decode_eq_ok {frame : Bytes} {m : Message} (h : decode frame = .ok m) :
    ∃ size rest, Codec.u32.decode frame = .ok (size, rest) ∧ size.toNat = frame.length ∧
      Codec.message.decode rest = .ok (m, []) := by
  cases hu : Codec.u32.decode frame with
  | error e =>
    rw [decode] at h
    have h : (Codec.u32.decode frame >>= _ : Except Fault Message) = .ok m := h
    rw [hu] at h
    cases h
  | ok found =>
    obtain ⟨size, rest⟩ := found
    refine ⟨size, rest, rfl, ?_⟩
    by_cases hs : size.toNat = frame.length
    · refine ⟨hs, ?_⟩
      rw [decode_of_size hu hs] at h
      cases hm : Codec.message.decode rest with
      | error e =>
        rw [hm] at h
        cases h
      | ok found =>
        obtain ⟨m', left⟩ := found
        rw [hm] at h
        have h : (if left.isEmpty then .ok m' else .error .trailingBytes : Except Fault Message) =
            .ok m := h
        by_cases hl : left.isEmpty
        · rw [if_pos hl] at h
          rw [Except.ok.inj h, List.isEmpty_iff.1 hl]
        · rw [if_neg hl] at h
          cases h
    · rw [decode] at h
      have h : (Codec.u32.decode frame >>= _ : Except Fault Message) = .ok m := h
      rw [hu] at h
      have h : (if size.toNat ≠ frame.length then _ else _ : Except Fault Message) = .ok m := h
      rw [if_pos hs] at h
      cases h

/-- The fields of a header stand at fixed places. -/
theorem header_of_fields {frame rest mid body : Bytes} {size : UInt32} {id : UInt8} {tag : UInt16}
    (hsize : Codec.u32.decode frame = .ok (size, rest)) (hid : Codec.u8.decode rest = .ok (id, mid))
    (htag : Codec.u16.decode mid = .ok (tag, body)) :
    headerSize ≤ frame.length ∧ UInt32.ofNat (LittleEndian.decode (frame.take 4)) = size ∧
      Session.frameType frame = id ∧ Session.frameTag frame = tag ∧
      frame.drop headerSize = body := by
  obtain ⟨four, rfl, h4, rfl⟩ := Reader.word_eq_ok.1 hsize
  obtain ⟨one, rfl, h1, rfl⟩ := Reader.word_eq_ok.1 hid
  obtain ⟨two, rfl, h2, rfl⟩ := Reader.word_eq_ok.1 htag
  obtain ⟨b, rfl⟩ := List.length_eq_one_iff.1 h1
  have hdrop : (four ++ ([b] ++ (two ++ body))).drop 5 = two ++ body := by
    rw [← List.append_assoc]
    exact List.drop_left' (by rw [List.length_append, h4]; rfl)
  refine ⟨?_, ?_, ?_, ?_, ?_⟩
  · simp only [List.length_append, h4, h2, List.length_singleton, headerSize]
    omega
  · rw [List.take_left' h4]
  · rw [Session.frameType, List.getD_eq_getElem?_getD, List.getElem?_append_right (by omega), h4]
    show b = UInt8.ofNat (b.toNat + 256 * 0)
    rw [Nat.mul_zero, Nat.add_zero, UInt8.ofNat_toNat]
  · rw [Session.frameTag, hdrop, List.take_left' h2]
  · have : ((four ++ ([b] ++ (two ++ body))).drop 5).drop 2 = body := by
      rw [hdrop, List.drop_left' h2]
    rwa [List.drop_drop] at this

/-- The header of a frame that is decoded. -/
theorem header_of_decode {frame : Bytes} {m : Message} (h : decode frame = .ok m) :
    headerSize ≤ frame.length ∧ LittleEndian.decode (frame.take 4) = frame.length ∧
      Session.frameType frame = m.body.type.id ∧ Session.frameTag frame = m.tag ∧
      Codec.decodeBody m.body.type (frame.drop headerSize) = .ok (m.body, []) := by
  obtain ⟨size, rest, hsize, hlen, hm⟩ := decode_eq_ok h
  obtain ⟨mid, body, hid, htag, hbody⟩ := message_eq_ok hm
  obtain ⟨hn, hs, ht, hg, hd⟩ := header_of_fields hsize hid htag
  refine ⟨hn, ?_, ht, hg, hd ▸ hbody⟩
  have hlt : LittleEndian.decode (frame.take 4) < 2 ^ 32 := by
    have := LittleEndian.decode_lt (frame.take 4)
    rwa [List.length_take_of_le (Nat.le_trans (by decide) hn)] at this
  rw [← hlen, ← hs, UInt32.toNat_ofNat_of_lt' hlt]

/-- The header of a frame that was encoded. -/
theorem header_of_encode {frame : Bytes} {m : Message} (hp : m.body.PayloadFits)
    (h : encode m = .ok frame) :
    Session.frameType frame = m.body.type.id ∧ Session.frameTag frame = m.tag := by
  obtain ⟨hn, hf⟩ := fits_of_encode hp h
  obtain ⟨data, extra, hw, hd, hr, -⟩ := (Carries.message hp).writes hf
  have hmax : data.length ≤ maxSize := hd ▸ hn
  rw [encode_of_writes hw, wrap_body hmax] at h
  obtain rfl := Except.ok.inj h
  have hlt : data.length + 4 < 2 ^ 32 := by
    simp only [maxSize] at hmax
    omega
  have hm := hr []
  rw [List.append_nil, List.append_nil] at hm
  obtain ⟨mid, body, hid, htag, -⟩ := message_eq_ok hm
  obtain ⟨-, -, ht, hg, -⟩ := header_of_fields (Reader.Reads.u32 hlt data) hid htag
  have htype := Body.type_counted m.body
  exact ⟨ht.trans (congrArg MessageType.id htype), hg⟩

end Frame

end NineP
