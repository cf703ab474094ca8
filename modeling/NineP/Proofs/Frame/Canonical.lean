import NineP.Proofs.Frame.Header
import NineP.Proofs.Wire.Canonical

/-!
# Frames that are written back

A frame that is decoded is the frame of its message, up to the attribute groups
that have no meaning:

* `Frame.encode_of_decode`: the message of a frame is encoded as that frame, as a
  receiver understands it;
* `Frame.canonical`: so two frames of one message differ in such groups only.
-/

namespace NineP.Frame

/-- The frame as a receiver understands it: attribute groups without a meaning are
cleared. -/
def understood (frame : Bytes) : Bytes :=
  match MessageType.ofId? (Session.frameType frame) with
  | some type => type.understood headerSize frame
  | none => frame

theorem length_understood (frame : Bytes) : (understood frame).length = frame.length := by
  unfold understood
  split
  · exact MessageType.length_understood ..
  · rfl

/-- A message that was read is written back behind its type and its tag. -/
theorem message_writes_back {bs : Bytes} {m : Message} (h : Codec.message.decode bs = .ok (m, [])) :
    (Codec.message.encode m).Writes bs.length (m.body.type.understood 3 bs) ∧
      bs.take 3 = m.body.type.id :: LittleEndian.encode 2 m.tag.toNat := by
  obtain ⟨mid, mid', hid, htag, hbody⟩ := message_eq_ok h
  obtain ⟨one, _, rfl, hw1, rfl⟩ := Mirrors.u8 hid
  obtain ⟨two, _, rfl, hw2, rfl⟩ := Mirrors.u16 htag
  obtain ⟨fields, back, rfl, hw3, rfl⟩ := Mirrors.body _ hbody
  have h1 : one = LittleEndian.encode 1 m.body.type.id.toNat :=
    (hw1.unique ((Writer.Writes.write _).bind_pure fun _ => 1)).2
  have h2 : two = LittleEndian.encode 2 m.tag.toNat :=
    (hw2.unique ((Writer.Writes.write _).bind_pure fun _ => 2)).2
  have hone : one = [m.body.type.id] := by
    rw [h1, LittleEndian.encode, LittleEndian.encode, UInt8.ofNat_toNat]
  have hlen2 : two.length = 2 := by rw [h2, LittleEndian.length_encode]
  rw [List.append_nil]
  constructor
  · have hhead : (one ++ two).length = 3 := by rw [List.length_append, hone, hlen2]; rfl
    have hback : m.body.type.understood 3 (one ++ (two ++ fields)) =
        one ++ (two ++ m.body.type.understood 0 fields) := by
      rw [← List.append_assoc, ← Nat.add_zero 3, MessageType.understood_append hhead,
        List.append_assoc]
    have hcount : (one ++ (two ++ fields)).length =
        one.length + two.length + (m.body.type.understood 0 fields).length := by
      simp only [List.length_append, MessageType.length_understood]
      omega
    rw [hback, hcount]
    exact hw1.bind (hw2.bind (hw3.bind_pure fun n => one.length + two.length + n))
  · rw [hone, h2]
    rfl

/-- The message of a frame is encoded as that frame, attribute groups without a
meaning aside. -/
theorem encode_of_decode {frame : Bytes} {m : Message} (h : decode frame = .ok m) :
    encode m = .ok (understood frame) := by
  obtain ⟨hn, hsize, htype, -, -⟩ := header_of_decode h
  obtain ⟨size, rest, hs, hlen, hm⟩ := decode_eq_ok h
  obtain ⟨four, _, rfl, hw4, rfl⟩ := Mirrors.u32 hs
  obtain ⟨hw, -⟩ := message_writes_back hm
  have h4 : four = LittleEndian.encode 4 size.toNat :=
    (hw4.unique ((Writer.Writes.write _).bind_pure fun _ => 4)).2
  have hlen4 : four.length = 4 := by rw [h4, LittleEndian.length_encode]
  have htotal : (four ++ rest).length = rest.length + 4 := by
    rw [List.length_append, hlen4, Nat.add_comm]
  have hfits : (m.body.type.understood 3 rest).length ≤ maxSize := by
    have hlt : size.toNat < 2 ^ 32 := size.toNat_lt
    rw [MessageType.length_understood, maxSize]
    omega
  have hback : understood (four ++ rest) = four ++ m.body.type.understood 3 rest := by
    rw [understood, htype, MessageType.ofId?_id]
    exact MessageType.understood_append hlen4 3 rest
  rw [encode_of_writes hw, wrap_body hfits, hback, MessageType.length_understood, sizeWidth,
    ← htotal, ← hlen, ← h4]

/-- A message that was read is as long as its frame, and its texts are not longer
than their counts can say. -/
theorem size_of_decode {frame : Bytes} {m : Message} (h : decode frame = .ok m) :
    4 + m.size = frame.length ∧ ∀ s ∈ m.body.texts, s.utf8ByteSize ≤ Codec.maxTextSize := by
  obtain ⟨-, -, -, -, hbody⟩ := header_of_decode h
  have hback := encode_of_decode h
  obtain ⟨hsize, htexts⟩ := fits_of_encode (Mirrors.payloadFits hbody) hback
  obtain ⟨frame', hf, hlen, -⟩ := encode_eq_ok hsize htexts
  obtain rfl := Except.ok.inj (hback.symm.trans hf)
  rw [← hlen, length_understood]
  exact ⟨rfl, htexts⟩

/-- A frame that is decoded is the frame of its message: that is encoded in as
many bytes, and in the same ones but for the attribute groups that have no
meaning. Behind its size there stand the type and the tag of the message, and no
other frame without such groups is decoded as that message. -/
theorem canonical {frame : Bytes} {m : Message} (h : decode frame = .ok m) :
    encode m = .ok (understood frame) ∧ (understood frame).length = frame.length ∧
      (frame.drop 4).take 3 = m.body.type.id :: LittleEndian.encode 2 m.tag.toNat ∧
      ∀ other, decode other = .ok m → understood other = other → understood frame = frame →
        other = frame := by
  refine ⟨encode_of_decode h, length_understood frame, ?_, fun other ho hu hu' => ?_⟩
  · obtain ⟨size, rest, hs, -, hm⟩ := decode_eq_ok h
    obtain ⟨four, rfl, h4, -⟩ := Reader.word_eq_ok.1 hs
    rw [List.drop_left' h4]
    exact (message_writes_back hm).2
  · have hboth := (encode_of_decode ho).symm.trans (encode_of_decode h)
    rw [hu, hu'] at hboth
    exact Except.ok.inj hboth

/-- A request for two groups, one of which has no meaning. -/
theorem canonical_tgetattr :
    decode [19, 0, 0, 0, 24, 1, 0, 2, 0, 0, 0, 1, 0x40, 0, 0, 0, 0, 0, 0] =
        .ok ⟨1, .tgetattr 2 ⟨1⟩⟩ ∧
      encode ⟨1, .tgetattr 2 ⟨1⟩⟩ =
        .ok [19, 0, 0, 0, 24, 1, 0, 2, 0, 0, 0, 1, 0, 0, 0, 0, 0, 0, 0] := by
  have h : decode [19, 0, 0, 0, 24, 1, 0, 2, 0, 0, 0, 1, 0x40, 0, 0, 0, 0, 0, 0] =
      .ok ⟨1, .tgetattr 2 ⟨1⟩⟩ := rfl
  exact ⟨h, (canonical h).1⟩

end NineP.Frame
