import NineP.Proofs.Session.Verdict
import NineP.Proofs.Wire.Canonical
import NineP.Proofs.Wire.Misread

/-!
# The target of a link

The target is read straight off its frame, with a bound on its length, and not as the
body of a message is:

* `Frame.decode_of_header`: a frame whose header is known is read as its body is;
* `boundedText_of_text`, `boundedText_of_announced`, `boundedText_of_error`: what the
  bounded reader makes of bytes that are a text, that announce too long a one, and of all
  others;
* `Session.readlink_decides`: so the two ways to read a frame agree, unless bytes are left
  over behind the target, which only the reader of messages refuses.
-/

namespace NineP

namespace Reader

variable {α β : Type} {bs rest : Bytes}

theorem bind_of_ok {r : Reader α} {f : α → Reader β} {a : α} (h : r bs = .ok (a, rest)) :
    (r >>= f) bs = f a rest := by
  rw [bind_apply, h]
  rfl

/-- The first bytes, if there are enough of them, are read as a word. -/
theorem word_of_le {width : Nat} {toNat : α → Nat} {ofNat : Nat → α} (h : width ≤ bs.length) :
    (Codec.word width toNat ofNat).decode bs =
      .ok (ofNat (LittleEndian.decode (bs.take width)), bs.drop width) :=
  word_eq_ok.2 ⟨bs.take width, (List.take_append_drop ..).symm, List.length_take_of_le h, rfl⟩

end Reader

/-- The number in front of a text, if its two bytes are there. -/
def Text.announced? (bs : Bytes) : Option Nat :=
  if bs.length < 2 then none else some (LittleEndian.decode (bs.take 2))

section

variable {bs rest : Bytes}

theorem Text.announced?_of_u16 {n : UInt16} (h : Codec.u16.decode bs = .ok (n, rest)) :
    Text.announced? bs = some n.toNat := by
  obtain ⟨front, rfl, hlen, rfl⟩ := Reader.word_eq_ok.1 h
  have hlt : LittleEndian.decode front < 2 ^ 16 := by
    have := LittleEndian.decode_lt front
    rwa [hlen] at this
  rw [announced?, if_neg (by rw [List.length_append, hlen]; omega), List.take_left' hlen,
    UInt16.toNat_ofNat_of_lt' hlt]

theorem Text.u16_of_announced {n : Nat} (h : Text.announced? bs = some n) :
    ∃ count rest, Codec.u16.decode bs = .ok (count, rest) ∧ count.toNat = n := by
  rw [announced?] at h
  by_cases hshort : bs.length < 2
  · rw [if_pos hshort] at h
    cases h
  · have hu : Codec.u16.decode bs =
        .ok (UInt16.ofNat (LittleEndian.decode (bs.take 2)), bs.drop 2) :=
      Reader.word_of_le (Nat.not_lt.1 hshort)
    have ha := announced?_of_u16 hu
    rw [announced?, h] at ha
    exact ⟨_, _, hu, (Option.some.inj ha).symm⟩

/-! ## The bounded reader -/

variable {capacity : Nat}

theorem boundedText_of_announced {n : Nat} (h : Text.announced? bs = some n) (hn : capacity < n) :
    (boundedText capacity bs).1 = .error (.bufferTooSmall n capacity) := by
  obtain ⟨count, rest, hu, rfl⟩ := Text.u16_of_announced h
  rw [boundedText_of_lt hu hn]

/-- The number in front of a text is that of its bytes. -/
theorem Text.announced?_counted {s : String} (h : s.utf8ByteSize ≤ Codec.maxTextSize) :
    Text.announced? (Text.counted s ++ rest) = some s.utf8ByteSize := by
  have hlt : s.utf8ByteSize < UInt16.size := Nat.lt_succ_of_le h
  have hlen : (LittleEndian.encode 2 s.utf8ByteSize).length = 2 := LittleEndian.length_encode ..
  rw [announced?, counted, List.append_assoc, List.take_left' hlen, LittleEndian.decode_encode hlt,
    if_neg (by rw [List.length_append, hlen]; omega)]

theorem boundedText_of_text {s : String} (h : Codec.text.decode bs = .ok (s, rest))
    (hs : s.utf8ByteSize ≤ capacity) : (boundedText capacity bs).1 = .ok s := by
  obtain ⟨n, mid, hn, htext⟩ := Reader.bind_eq_ok.1 h
  have hsize : n.toNat = s.utf8ByteSize := by
    obtain ⟨hmax, rfl⟩ := Codec.text_eq_ok.1 h
    have ha := Text.announced?_of_u16 hn
    rw [Text.announced?_counted hmax] at ha
    exact (Option.some.inj ha).symm
  simp only [boundedText, hn]
  rw [if_neg (Nat.not_lt.2 (hsize ▸ hs)), htext]

theorem boundedText_of_error {fault : Fault} (h : Codec.text.decode bs = .error fault)
    (hn : ∀ n, Text.announced? bs = some n → n ≤ capacity) :
    (boundedText capacity bs).1 = .error (.decode fault) := by
  have h : (Codec.u16.decode bs >>= fun (n, rest) => Codec.decodeText n.toNat rest :
      Except Fault (String × Bytes)) = .error fault := h
  rw [boundedText]
  cases hu : Codec.u16.decode bs with
  | error e =>
    rw [hu] at h
    cases h
    rfl
  | ok found =>
    obtain ⟨n, rest⟩ := found
    rw [hu] at h
    have h : Codec.decodeText n.toNat rest = .error fault := h
    have hle := hn _ (Text.announced?_of_u16 hu)
    simp only [if_neg (Nat.not_lt.2 hle), h]

end

/-! ## The reader of messages -/

namespace Frame

variable {frame : Bytes}

/-- A frame whose header is known is read as its body is, if nothing is behind it. -/
theorem decode_of_header {type : MessageType} (hleast : headerSize ≤ frame.length)
    (hsize : LittleEndian.decode (frame.take 4) = frame.length)
    (htype : Session.frameType frame = type.id) :
    decode frame =
      Codec.decodeBody type (frame.drop headerSize) >>= fun (body, rest) =>
        if rest.isEmpty then .ok ⟨Session.frameTag frame, body⟩ else .error .trailingBytes := by
  have hseven : 7 ≤ frame.length := hleast
  have hu32 : Codec.u32.decode frame =
      .ok (UInt32.ofNat (LittleEndian.decode (frame.take 4)), frame.drop 4) :=
    Reader.word_of_le (by omega)
  have hu8 : Codec.u8.decode (frame.drop 4) =
      .ok (UInt8.ofNat (LittleEndian.decode ((frame.drop 4).take 1)), (frame.drop 4).drop 1) :=
    Reader.word_of_le (by rw [List.length_drop]; omega)
  have hu16 : Codec.u16.decode ((frame.drop 4).drop 1) =
      .ok (UInt16.ofNat (LittleEndian.decode (((frame.drop 4).drop 1).take 2)),
        ((frame.drop 4).drop 1).drop 2) :=
    Reader.word_of_le (by rw [List.length_drop, List.length_drop]; omega)
  obtain ⟨-, -, hid, htag, hdrop⟩ := header_of_fields hu32 hu8 hu16
  have hlen : (UInt32.ofNat (LittleEndian.decode (frame.take 4))).toNat = frame.length := by
    have hlt := LittleEndian.decode_lt (frame.take 4)
    rw [List.length_take_of_le (by omega)] at hlt
    rw [UInt32.toNat_ofNat_of_lt' hlt, hsize]
  have hmessage : Codec.message.decode (frame.drop 4) =
      Codec.decodeBody type (((frame.drop 4).drop 1).drop 2) >>= fun (body, rest) =>
        .ok (⟨Session.frameTag frame, body⟩, rest) := by
    refine (Reader.bind_of_ok hu8).trans ((Reader.bind_of_ok hu16).trans ?_)
    rw [← hid, ← htag, htype, MessageType.ofId?_id]
    rfl
  rw [decode_of_size hu32 hlen, hmessage, hdrop]
  cases Codec.decodeBody type (((frame.drop 4).drop 1).drop 2) <;> rfl

end Frame

namespace Session

/-- How the result of reading a link's target from a frame is related to the message in
the frame. -/
structure Readlink (frame : Bytes) (r : Except Error String) : Prop where
  /-- If no bytes are left over, then a target is given out exactly if it is the one in the
  message and is not too long. -/
  whole : Frame.decode frame ≠ .error .trailingBytes → ∀ target, r = .ok target ↔
    Frame.decode frame = .ok ⟨sessionTag, .rreadlink target⟩ ∧ target.utf8ByteSize ≤ maxTarget
  /-- If bytes are left over, then the target in front of them is given out all the same. -/
  surplus : Frame.decode frame = .error .trailingBytes → ∃ target surplus, surplus ≠ [] ∧
    frame.drop headerSize = Text.counted target ++ surplus ∧
    (target.utf8ByteSize ≤ maxTarget → r = .ok target)
  /-- The number in front of the target decides whether it is too long, whatever follows. -/
  long : ∀ n, Text.announced? (frame.drop headerSize) = some n → maxTarget < n →
    r = .error (.bufferTooSmall n maxTarget)
  /-- Everything else that is wrong with the message is a failure to read it. -/
  malformed : ∀ fault, Frame.decode frame = .error fault → fault ≠ .trailingBytes →
    (∀ n, Text.announced? (frame.drop headerSize) = some n → n ≤ maxTarget) →
    r = .error (.decode fault)

section

variable {frame : Bytes}

/-- A frame of a link's target is read as the text in it is. -/
theorem decode_of_rreadlink (hleast : headerSize ≤ frame.length)
    (hsize : LittleEndian.decode (frame.take 4) = frame.length)
    (htag : frameTag frame = sessionTag) (htype : frameType frame = MessageType.rreadlink.id) :
    Frame.decode frame =
      match Codec.text.decode (frame.drop headerSize) with
      | .error fault => .error fault
      | .ok (target, rest) =>
        if rest.isEmpty then .ok ⟨sessionTag, .rreadlink target⟩ else .error .trailingBytes := by
  rw [Frame.decode_of_header hleast hsize htype, htag]
  show ((Body.rreadlink <$> Codec.text.decode : Reader Body) (frame.drop headerSize) >>= _) = _
  rw [map_eq_pure_bind, Reader.bind_apply]
  cases Codec.text.decode (frame.drop headerSize) <;> rfl

/-- The bounded reader's result, from what is read as a text. -/
theorem readlink_boundedText (hleast : headerSize ≤ frame.length)
    (hsize : LittleEndian.decode (frame.take 4) = frame.length)
    (htag : frameTag frame = sessionTag) (htype : frameType frame = MessageType.rreadlink.id) :
    Readlink frame (boundedText maxTarget (frame.drop headerSize)).1 := by
  have hd := decode_of_rreadlink hleast hsize htag htype
  have hlong (n : Nat) (hn : Text.announced? (frame.drop headerSize) = some n)
      (hlt : maxTarget < n) := boundedText_of_announced hn hlt
  cases ht : Codec.text.decode (frame.drop headerSize) with
  | error fault =>
    rw [ht] at hd
    have hmisread : fault.Misread := Reader.Plain.text.misread ht
    have hne : fault ≠ .trailingBytes := by
      rintro rfl
      cases hmisread
    refine ⟨fun _ target => ⟨fun hr => ?_, fun hm => ?_⟩, fun ht => ?_, hlong,
      fun fault' hf _ hn => ?_⟩
    · by_cases hn : ∀ n, Text.announced? (frame.drop headerSize) = some n → n ≤ maxTarget
      · rw [boundedText_of_error ht hn] at hr
        cases hr
      · obtain ⟨n, hn⟩ := not_forall.1 hn
        obtain ⟨ha, hlt⟩ := Classical.not_imp.1 hn
        rw [hlong n ha (Nat.not_le.1 hlt)] at hr
        cases hr
    · cases hd.symm.trans hm.1
    · exact absurd (Except.error.inj (hd.symm.trans ht)) hne
    · obtain rfl := Except.error.inj (hd.symm.trans hf)
      exact boundedText_of_error ht hn
  | ok found =>
    obtain ⟨target, rest⟩ := found
    rw [ht] at hd
    obtain ⟨hmax, hbytes⟩ := Codec.text_eq_ok.1 ht
    have ha : Text.announced? (frame.drop headerSize) = some target.utf8ByteSize := by
      rw [hbytes, Text.announced?_counted hmax]
    have hfits (hle : target.utf8ByteSize ≤ maxTarget) := boundedText_of_text ht hle
    by_cases hrest : rest = []
    · subst hrest
      have hd : Frame.decode frame = .ok ⟨sessionTag, .rreadlink target⟩ := hd
      refine ⟨fun _ target' => ⟨fun hr => ?_, fun hm => ?_⟩, fun ht => ?_, hlong,
        fun fault hf => ?_⟩
      · by_cases hle : target.utf8ByteSize ≤ maxTarget
        · rw [hfits hle] at hr
          obtain rfl := Except.ok.inj hr
          exact ⟨hd, hle⟩
        · rw [hlong _ ha (Nat.not_le.1 hle)] at hr
          cases hr
      · cases hd.symm.trans hm.1
        exact hfits hm.2
      · cases hd.symm.trans ht
      · cases hd.symm.trans hf
    · have hd : Frame.decode frame = .error .trailingBytes :=
        hd.trans (if_neg fun h => hrest (List.isEmpty_iff.1 h))
      refine ⟨fun hne => absurd hd hne, fun _ => ⟨target, rest, hrest, hbytes, hfits⟩, hlong,
        fun fault hf hne => ?_⟩
      exact absurd (Except.error.inj (hd.symm.trans hf)).symm hne

end

/-- A link's target is read, in whatever session, from a frame that carries the tag of the
session and the type of such a response, and is no longer than the message size. Exactly
the frame is taken off the stream, and the result agrees with the reader of messages as
`Readlink` says: a target is given out exactly if it is that of the message and is not too
long, unless bytes are left over behind it; then it is given out although there is no
message. -/
theorem readlink_decides (s : Session) (fid : UInt32) (p : Peer) (request reply frame rest : Bytes)
    (hsent : (Query.readlink fid).sends s = .ok request)
    (hstream : p.stream ++ reply = frame ++ rest) (hleast : headerSize ≤ frame.length)
    (hmost : frame.length ≤ s.msize.toNat)
    (hsize : LittleEndian.decode (frame.take 4) = frame.length)
    (htag : frameTag frame = sessionTag) (htype : frameType frame = MessageType.rreadlink.id) :
    ∃ r, Readlink frame r ∧
      (∃ r' q, ((readlink fid).runIn s).Runs (Peer.Step (.replying reply)) p r' q) ∧
      ∀ r' t q, ((readlink fid).runIn s).Runs (Peer.Step (.replying reply)) p (r', t) q →
        r' = r ∧ t = s ∧ q.stream = rest ∧ q.log = (request, reply) :: p.log := by
  have hverdict : (Query.readlink fid).verdict s frame =
      some (boundedText maxTarget (frame.drop headerSize)).1 := by
    have hexpected : frameType frame = (Query.readlink fid).expected.id := htype
    rw [Query.verdict, if_neg fun hne => hne htag, if_pos hexpected]
    rfl
  refine ⟨_, readlink_boundedText hleast hsize htag htype, Peer.runs_total _ _ p,
    fun r' t q hrun => ?_⟩
  exact Query.always_decided hsent hstream hleast hmost hsize hverdict _ _ hrun

/-- The response whose target is one letter. -/
def letter : Bytes := [10, 0, 0, 0, 23, 1, 0, 1, 0, 97]

/-- The letter is given out, and the byte behind the response is left for others. -/
theorem readlink_decides_letter :
    (∃ request, (Query.readlink 1).sends {} = .ok request) ∧
      (∃ r q, ((readlink 1).runIn {}).Runs (Peer.Step (.replying (letter ++ [7]))) {} r q) ∧
      ∀ r t q, ((readlink 1).runIn {}).Runs (Peer.Step (.replying (letter ++ [7]))) {} (r, t) q →
        r = .ok "a" ∧ t = {} ∧ q.stream = [7] := by
  obtain ⟨request, hsent⟩ : ∃ request, (Query.readlink 1).sends {} = .ok request := ⟨_, rfl⟩
  obtain ⟨r, hr, htotal, hall⟩ := readlink_decides {} 1 {} request (letter ++ [7]) letter [7]
    hsent rfl (by decide) (by decide) rfl rfl rfl
  have hd : Frame.decode letter = .ok ⟨sessionTag, .rreadlink "a"⟩ := rfl
  have hne : Frame.decode letter ≠ .error .trailingBytes := by
    rw [hd]
    exact fun h => by cases h
  obtain rfl := (hr.whole hne "a").2 ⟨hd, by decide⟩
  refine ⟨⟨request, hsent⟩, htotal, fun r t q h => ?_⟩
  obtain ⟨rfl, rfl, hs, -⟩ := hall r t q h
  exact ⟨rfl, rfl, hs⟩

/-- The response whose target is one letter, with one more byte in it. -/
def letterAndByte : Bytes := [11, 0, 0, 0, 23, 1, 0, 1, 0, 97, 0]

/-- Reading a target does not agree with the reader of messages on every response. -/
theorem not_readlink_decodes :
    ¬ ∀ (s : Session) (fid : UInt32) (p q : Peer) (frame : Bytes) (target : String) (t : Session),
      p.stream = [] → headerSize ≤ frame.length → frame.length ≤ s.msize.toNat →
      LittleEndian.decode (frame.take 4) = frame.length → frameTag frame = sessionTag →
      frameType frame = MessageType.rreadlink.id →
      ((readlink fid).runIn s).Runs (Peer.Step (.replying frame)) p (.ok target, t) q →
      Frame.decode frame = .ok ⟨sessionTag, .rreadlink target⟩ := by
  intro h
  obtain ⟨request, hsent⟩ : ∃ request, (Query.readlink 1).sends {} = .ok request := ⟨_, rfl⟩
  obtain ⟨⟨r, t⟩, q, hrun⟩ := Peer.runs_total (.replying letterAndByte) ((readlink 1).runIn {}) {}
  have hverdict : (Query.readlink 1).verdict {} letterAndByte = some (.ok "a") := by
    decide
  have hstream : ({} : Peer).stream ++ letterAndByte = letterAndByte ++ [] := rfl
  obtain ⟨rfl, -⟩ :=
    Query.always_decided hsent hstream (by decide) (by decide) rfl hverdict _ _ hrun
  cases h {} 1 {} q letterAndByte "a" t rfl (by decide) (by decide) rfl rfl rfl hrun

end Session

end NineP
