import NineP.Proofs.Wire.Message

/-!
# What is read is written back

The other half of the law of a codec: no two byte strings are read as one value.
Whatever a reader takes off the front of its input, a writer writes in the same
bytes, except that attribute groups without a meaning are cleared:

* `Mirrors`: a value that was read is written in bytes that stand in a given
  relation to those that it was read from;
* `Mirrors.pair`, `Mirrors.imap`, `Mirrors.vector`: the law of a composite codec
  follows from those of its parts;
* `Mirrors.listing_eq_ok`: the entries of a listing fill the bytes that its count
  announces, and so give the count back;
* `Codec.text_eq_ok`: the bytes that are read as a text;
* `Mirrors.body`: the fields of a message are written back as a receiver understands
  them, with the attribute groups cleared that have no meaning.
-/

namespace NineP

/-- No writer writes two things. -/
theorem Writer.Writes.unique {w : Writer α} {a b : α} {xs ys : Bytes} (h : w.Writes a xs)
    (h' : w.Writes b ys) : a = b ∧ xs = ys := by
  have hrun : (Except.ok a, Sink.growing.push xs) = (.ok b, Sink.growing.push ys) :=
    (h.fits (Sink.fits_of_growing rfl xs)).symm.trans (h'.fits (Sink.fits_of_growing rfl ys))
  simp only [Prod.mk.injEq, Except.ok.injEq] at hrun
  have hw := congrArg Sink.written hrun.2
  simp only [Sink.written_push_growing] at hw
  exact ⟨hrun.1, hw⟩

theorem Writer.Writes.not_refuses {w : Writer α} {a : α} {bs : Bytes} (h : w.Writes a bs) :
    ¬ w.Refuses := by
  intro hr
  obtain ⟨e, t, he, -⟩ := hr .growing
  rw [h.fits (Sink.fits_of_growing rfl bs)] at he
  cases he

/-- What `r` reads from some bytes, `w` writes in bytes that stand in the relation
`E` to them. -/
def Mirrors (E : Bytes → Bytes → Prop) (r : Reader α) (w : α → Writer Nat) : Prop :=
  ∀ ⦃bs rest : Bytes⦄ ⦃v : α⦄, r bs = .ok (v, rest) →
    ∃ front back, bs = front ++ rest ∧ (w v).Writes back.length back ∧ E front back

/-- What is read is written in the same bytes. -/
abbrev Canonical (c : Codec α) : Prop := Mirrors Eq c.decode c.encode

namespace Mirrors

variable {E F G : Bytes → Bytes → Prop}

theorem mono {r : Reader α} {w : α → Writer Nat} (h : Mirrors E r w)
    (hf : ∀ xs ys, E xs ys → F xs ys) : Mirrors F r w := by
  intro bs rest v hr
  obtain ⟨front, back, hb, hw, he⟩ := h hr
  exact ⟨front, back, hb, hw, hf _ _ he⟩

theorem map {r : Reader α} {w : α → Writer Nat} {f : α → β} {w' : β → Writer Nat}
    (h : Mirrors E r w) (hw : ∀ a, w' (f a) = w a) : Mirrors E (f <$> r) w' := by
  intro bs rest b hr
  obtain ⟨a, ha, rfl⟩ := Reader.map_eq_ok.1 hr
  rw [hw a]
  exact h ha

theorem imap {c : Codec α} {view : β → α} {build : α → β} (h : Mirrors E c.decode c.encode)
    (hv : ∀ a, view (build a) = a) :
    Mirrors E (c.imap view build).decode (c.imap view build).encode := by
  refine h.map fun a => ?_
  show c.encode (view (build a)) = c.encode a
  rw [hv]

/-- Two values one after the other, read from two pieces and written in two. -/
theorem pair_of {c : Codec α} {d : Codec β} (hc : Mirrors E c.decode c.encode)
    (hd : Mirrors F d.decode d.encode)
    (hg : ∀ xs xs' ys ys', E xs xs' → F ys ys' → G (xs ++ ys) (xs' ++ ys')) :
    Mirrors G (c.pair d).decode (c.pair d).encode := by
  intro bs rest v hr
  obtain ⟨a, mid, ha, hr⟩ := Reader.bind_eq_ok.1 hr
  obtain ⟨b, mid', hb, hp⟩ := Reader.bind_eq_ok.1 hr
  obtain ⟨rfl, rfl⟩ := Reader.pure_eq_ok.1 hp
  obtain ⟨xs, xs', rfl, hwx, hex⟩ := hc ha
  obtain ⟨ys, ys', rfl, hwy, hey⟩ := hd hb
  refine ⟨xs ++ ys, xs' ++ ys', (List.append_assoc ..).symm, ?_, hg _ _ _ _ hex hey⟩
  rw [List.length_append]
  exact hwx.bind (hwy.bind_pure fun n => xs'.length + n)

theorem pair {c : Codec α} {d : Codec β} (hc : Canonical c) (hd : Canonical d) :
    Canonical (c.pair d) :=
  hc.pair_of hd fun _ _ _ _ hx hy => by rw [hx, hy]

/-- A word is read from as many bytes as it is wide. -/
theorem word {width : Nat} {toNat : α → Nat} {ofNat : Nat → α}
    (h : ∀ n < LittleEndian.range width, toNat (ofNat n) = n) :
    Mirrors (fun xs ys => ys = xs ∧ xs.length = width) (Codec.word width toNat ofNat).decode
      (Codec.word width toNat ofNat).encode := by
  intro bs rest v hr
  obtain ⟨front, hb, hn, rfl⟩ := Reader.word_eq_ok.1 hr
  have hlt : LittleEndian.decode front < LittleEndian.range width := hn ▸ LittleEndian.decode_lt front
  have hback : LittleEndian.encode width (toNat (ofNat (LittleEndian.decode front))) = front := by
    rw [h _ hlt, ← hn, LittleEndian.encode_decode]
  refine ⟨front, front, hb, ?_, rfl, hn⟩
  have hw := (Writer.Writes.write front).bind_pure fun _ => front.length
  simp only [Codec.word, hback]
  rwa [hn] at hw ⊢

theorem u8 : Canonical Codec.u8 :=
  (word fun _ h => UInt8.toNat_ofNat_of_lt' (by exact h)).mono fun _ _ h => h.1.symm

theorem u16 : Canonical Codec.u16 :=
  (word fun _ h => UInt16.toNat_ofNat_of_lt' (by exact h)).mono fun _ _ h => h.1.symm

theorem u32_width :
    Mirrors (fun xs ys => ys = xs ∧ xs.length = 4) Codec.u32.decode Codec.u32.encode :=
  word fun _ h => UInt32.toNat_ofNat_of_lt' (by exact h)

theorem u32 : Canonical Codec.u32 := u32_width.mono fun _ _ h => h.1.symm

theorem u64_width :
    Mirrors (fun xs ys => ys = xs ∧ xs.length = 8) Codec.u64.decode Codec.u64.encode :=
  word fun _ h => UInt64.toNat_ofNat_of_lt' (by exact h)

theorem u64 : Canonical Codec.u64 := u64_width.mono fun _ _ h => h.1.symm

/-! ## Counted lists and bytes -/

/-- Elements that were read one after the other are written one after the
other. -/
theorem times {c : Codec α} (h : Canonical c) {n : Nat} {acc : List α} {bs rest : Bytes}
    {xs : List α} (hr : Reader.times c.decode n acc bs = .ok (xs, rest)) :
    ∃ ys front, xs = acc.reverse ++ ys ∧ ys.length = n ∧ bs = front ++ rest ∧
      ∀ k, (Writer.total c.encode k ys).Writes (k + front.length) front := by
  induction n generalizing acc bs with
  | zero =>
    obtain ⟨rfl, rfl⟩ := Reader.pure_eq_ok.1 hr
    exact ⟨[], [], (List.append_nil _).symm, rfl, rfl, fun k => Writer.Writes.pure k⟩
  | succ n ih =>
    obtain ⟨x, mid, hx, hmore⟩ := Reader.bind_eq_ok.1 hr
    obtain ⟨front, _, rfl, hw, rfl⟩ := h hx
    obtain ⟨ys, back, rfl, hn, rfl, hws⟩ := ih hmore
    refine ⟨x :: ys, front ++ back, ?_, by rw [List.length_cons, hn],
      (List.append_assoc ..).symm, fun k => ?_⟩
    · rw [List.reverse_cons, List.append_assoc, List.singleton_append]
    · rw [List.length_append, ← Nat.add_assoc]
      exact hw.bind (hws _)

/-- Elements that were read until the bytes ended are written in all of the
bytes. -/
theorem exhaust {c : Codec α} (h : Canonical c) {fuel : Nat} {acc : List α} {bs : Bytes}
    {xs : List α} (hr : Reader.exhaust.go c.decode fuel acc bs = .ok xs) :
    ∃ ys, xs = acc.reverse ++ ys ∧
      ∀ k, (Writer.total c.encode k ys).Writes (k + bs.length) bs := by
  induction fuel generalizing acc bs with
  | zero =>
    cases bs with
    | nil =>
      simp only [Reader.exhaust.go, Except.ok.injEq] at hr
      exact ⟨[], by simp [hr], fun k => Writer.Writes.pure k⟩
    | cons b bs => simp [Reader.exhaust.go] at hr
  | succ fuel ih =>
    cases bs with
    | nil =>
      simp only [Reader.exhaust.go, Except.ok.injEq] at hr
      exact ⟨[], by simp [hr], fun k => Writer.Writes.pure k⟩
    | cons b bs =>
      simp only [Reader.exhaust.go] at hr
      cases hx : c.decode (b :: bs) with
      | error e =>
        rw [hx] at hr
        cases hr
      | ok found =>
        obtain ⟨x, rest⟩ := found
        rw [hx] at hr
        obtain ⟨front, _, hb, hw, rfl⟩ := h hx
        obtain ⟨ys, rfl, hws⟩ := ih hr
        refine ⟨x :: ys, ?_, fun k => ?_⟩
        · rw [List.reverse_cons, List.append_assoc, List.singleton_append]
        · rw [hb, List.length_append, ← Nat.add_assoc]
          exact hw.bind (hws _)

/-- The count of a vector that was read is its length. -/
theorem vector {c : Codec α} (h : Canonical c) : Canonical c.vector := by
  intro bs rest xs hr
  obtain ⟨n, mid, hn, hxs⟩ := Reader.bind_eq_ok.1 hr
  obtain ⟨field, _, rfl, hw, rfl⟩ := u16 hn
  obtain ⟨ys, front, rfl, hlen, rfl, hws⟩ := times h hxs
  refine ⟨field ++ front, _, (List.append_assoc ..).symm, ?_, rfl⟩
  have hcount : UInt16.ofNat xs.length = n := by rw [hlen, UInt16.ofNat_toNat]
  rw [List.length_append]
  show (Codec.u16.encode (UInt16.ofNat xs.length) >>= _ : Writer Nat).Writes _ _
  rw [hcount]
  exact hw.bind (hws _)

theorem counted_eq_ok {n : Nat} {bs rest front : Bytes}
    (h : Codec.counted n bs = .ok (front, rest)) : bs = front ++ rest ∧ front.length = n :=
  Reader.take_eq_ok.1 h

theorem payload : Canonical Codec.payload := by
  intro bs rest v hr
  obtain ⟨n, mid, hn, hdata⟩ := Reader.bind_eq_ok.1 hr
  obtain ⟨field, _, rfl, hw, rfl⟩ := u32 hn
  obtain ⟨rfl, hlen⟩ := counted_eq_ok hdata
  refine ⟨field ++ v, _, (List.append_assoc ..).symm, ?_, rfl⟩
  have hcount : UInt32.ofNat v.length = n := by rw [hlen, UInt32.ofNat_toNat]
  rw [List.length_append]
  show (Codec.u32.encode (UInt32.ofNat v.length) >>= _ : Writer Nat).Writes _ _
  rw [hcount]
  exact hw.bind ((Writer.Writes.write v).bind_pure fun _ => field.length + v.length)

/-- A text is written in the bytes that it was read from, for there is but one
encoding of it. -/
theorem text : Canonical Codec.text := by
  intro bs rest s hr
  obtain ⟨n, mid, hn, htext⟩ := Reader.bind_eq_ok.1 hr
  obtain ⟨field, _, rfl, hw, rfl⟩ := u16 hn
  obtain ⟨front, mid', hf, hs⟩ := Reader.bind_eq_ok.1 htext
  obtain ⟨rfl, hlen⟩ := counted_eq_ok hf
  cases ht : Text.ofBytes? front with
  | none =>
    rw [ht] at hs
    cases hs
  | some t =>
    rw [ht] at hs
    obtain ⟨rfl, rfl⟩ := Reader.pure_eq_ok.1 hs
    have hbytes : Text.toBytes s = front := Text.toBytes_of_ofBytes? ht
    have hsize : s.utf8ByteSize = n.toNat := by rw [← Text.length_toBytes, hbytes, hlen]
    have hmax : s.utf8ByteSize ≤ Codec.maxTextSize := by
      have := n.toNat_lt
      rw [hsize, Codec.maxTextSize]
      omega
    have hcount : UInt16.ofNat s.utf8ByteSize = n := by rw [hsize, UInt16.ofNat_toNat]
    refine ⟨field ++ front, _, (List.append_assoc ..).symm, ?_, rfl⟩
    simp only [Codec.text, gt_iff_lt, Nat.not_lt.2 hmax, if_false, hcount, hbytes]
    rw [List.length_append, hlen, ← hsize]
    exact hw.bind ((Writer.Writes.write front).bind_pure fun _ => field.length + s.utf8ByteSize)

/-! ## The data in messages -/

theorem qid : Canonical Codec.qid := (u8.pair (u32.pair u64)).imap fun _ => rfl

theorem time : Canonical Codec.time := (u64.pair u64).imap fun _ => rfl

theorem stat : Canonical Codec.stat :=
  (u32.pair (u32.pair (u32.pair (u64.pair (u64.pair (u64.pair (u64.pair (u64.pair
    (time.pair (time.pair time)))))))))).imap fun _ => rfl

theorem fsStat : Canonical Codec.fsStat :=
  (u32.pair (u32.pair (u64.pair (u64.pair (u64.pair (u64.pair (u64.pair (u64.pair
    u32)))))))).imap fun _ => rfl

theorem dirEntry : Canonical Codec.dirEntry :=
  (qid.pair (u64.pair (u8.pair text))).imap fun _ => rfl

/-- The entries of a listing fill the bytes that were counted. -/
theorem listing_eq_ok {bs rest : Bytes} {entries : List DirEntry}
    (h : Codec.listing.decode bs = .ok (entries, rest)) :
    ∃ n data, Codec.u32.decode bs = .ok (n, data ++ rest) ∧ data.length = n.toNat ∧
      (entries.map DirEntry.wireSize).sum = data.length ∧
      ∀ k, (Writer.total Codec.dirEntry.encode k entries).Writes (k + data.length) data := by
  obtain ⟨data, mid, hd, -⟩ := Reader.bind_eq_ok.1 h
  obtain ⟨n, mid', hn, hdata⟩ := Reader.bind_eq_ok.1 hd
  obtain ⟨rfl, hlen⟩ := counted_eq_ok hdata
  have hall : Reader.exhaust Codec.dirEntry.decode data = .ok entries ∧ rest = mid := by
    rw [Codec.listing_of_payload hd] at h
    cases hx : Reader.exhaust Codec.dirEntry.decode data with
    | error e =>
      rw [hx] at h
      cases h
    | ok xs =>
      rw [hx] at h
      cases h
      exact ⟨rfl, rfl⟩
  obtain ⟨hx, rfl⟩ := hall
  obtain ⟨_, rfl, hws⟩ := exhaust dirEntry hx
  have hcarries : ∀ e ∈ entries, Carries (Codec.dirEntry.encode e) Codec.dirEntry.decode
      (e.name.utf8ByteSize ≤ Codec.maxTextSize) e.wireSize 0 (id e) := fun e _ => Carries.dirEntry e
  have hfits : ∀ e ∈ entries, e.name.utf8ByteSize ≤ Codec.maxTextSize :=
    Classical.byContradiction fun hf =>
      (hws 0).not_refuses (Carries.total_refuses hcarries hf 0)
  have hsum : (entries.map DirEntry.wireSize).sum = data.length := by
    obtain ⟨data', hlen', hws', -⟩ := Carries.total hcarries hfits
    rw [← hlen', ((hws' 0).unique (hws 0)).2]
  exact ⟨n, data, hn, hlen, hsum, hws⟩

theorem listing : Canonical Codec.listing := by
  intro bs rest entries hr
  obtain ⟨n, data, hn, hlen, hsum, hws⟩ := listing_eq_ok hr
  obtain ⟨field, _, rfl, hw, rfl⟩ := u32 hn
  have hcount : DirEntry.listingSize entries = n := by
    apply UInt32.toNat_inj.1
    have hlt : data.length < UInt32.size := hlen ▸ n.toNat_lt
    rw [DirEntry.toNat_listingSize (hsum ▸ hlt), hsum, hlen]
  refine ⟨field ++ data, _, (List.append_assoc ..).symm, ?_, rfl⟩
  rw [List.length_append]
  show (Codec.u32.encode (DirEntry.listingSize entries) >>= _ : Writer Nat).Writes _ _
  rw [hcount]
  exact hw.bind (hws _)

/-- A payload that was read is not longer than its count can say. -/
theorem payloadFits {bs rest : Bytes} {b : Body}
    (h : Codec.decodeBody b.type bs = .ok (b, rest)) : b.PayloadFits := by
  cases b with
  | rreaddir entries =>
    obtain ⟨_, hlisting, hb⟩ := Reader.map_eq_ok.1 h
    obtain rfl := Body.rreaddir.inj hb
    obtain ⟨n, data, -, hlen, hsum, -⟩ := listing_eq_ok hlisting
    show (entries.map DirEntry.wireSize).sum < UInt32.size
    rw [hsum, hlen]
    exact n.toNat_lt
  | rread data =>
    obtain ⟨_, hpayload, hb⟩ := Reader.map_eq_ok.1 h
    obtain rfl := Body.rread.inj hb
    obtain ⟨n, mid, -, hdata⟩ := Reader.bind_eq_ok.1 hpayload
    obtain ⟨-, hlen⟩ := counted_eq_ok hdata
    show data.length < UInt32.size
    rw [hlen]
    exact n.toNat_lt
  | _ => exact trivial

end Mirrors

/-! ## Texts -/

/-- A text with the number of its bytes in front. -/
def Text.counted (s : String) : Bytes := LittleEndian.encode 2 s.utf8ByteSize ++ Text.toBytes s

/-- The bytes that are read as a text. -/
theorem Codec.text_eq_ok {bs rest : Bytes} {s : String} : Codec.text.decode bs = .ok (s, rest) ↔
    s.utf8ByteSize ≤ Codec.maxTextSize ∧ bs = Text.counted s ++ rest := by
  constructor
  · intro h
    obtain ⟨n, mid, hn, htext⟩ := Reader.bind_eq_ok.1 h
    obtain ⟨field, rfl, hfield, rfl⟩ := Reader.word_eq_ok.1 hn
    obtain ⟨front, mid', hfront, hs⟩ := Reader.bind_eq_ok.1 htext
    obtain ⟨rfl, hlen⟩ := Mirrors.counted_eq_ok hfront
    cases ht : Text.ofBytes? front with
    | none =>
      rw [ht] at hs
      cases hs
    | some t =>
      rw [ht] at hs
      obtain ⟨rfl, rfl⟩ := Reader.pure_eq_ok.1 hs
      have hlt : LittleEndian.decode field < 2 ^ 16 := by
        have := LittleEndian.decode_lt field
        rwa [hfield] at this
      rw [UInt16.toNat_ofNat_of_lt' hlt] at hlen
      have hbytes : Text.toBytes s = front := Text.toBytes_of_ofBytes? ht
      have hsize : s.utf8ByteSize = LittleEndian.decode field := by
        rw [← Text.length_toBytes, hbytes, hlen]
      refine ⟨?_, ?_⟩
      · rw [hsize]
        exact Nat.le_of_lt_succ hlt
      · rw [Text.counted, hbytes, hsize, ← hfield, LittleEndian.encode_decode, List.append_assoc]
  · rintro ⟨hs, rfl⟩
    have hlt : s.utf8ByteSize < UInt16.size := Nat.lt_succ_of_le hs
    have hcount : (UInt16.ofNat s.utf8ByteSize).toNat = s.utf8ByteSize :=
      UInt16.toNat_ofNat_of_lt' hlt
    have hn : Codec.u16.decode (Text.counted s ++ rest) =
        .ok (UInt16.ofNat s.utf8ByteSize, Text.toBytes s ++ rest) := by
      refine Reader.word_eq_ok.2 ⟨LittleEndian.encode 2 s.utf8ByteSize, ?_,
        LittleEndian.length_encode .., ?_⟩
      · rw [Text.counted, List.append_assoc]
      · rw [LittleEndian.decode_encode hlt]
    have hfront : Codec.counted (UInt16.ofNat s.utf8ByteSize).toNat (Text.toBytes s ++ rest) =
        .ok (Text.toBytes s, rest) :=
      Reader.take_append ((Text.length_toBytes s).trans hcount.symm) _
    refine Reader.bind_eq_ok.2 ⟨_, _, hn, Reader.bind_eq_ok.2 ⟨_, _, hfront, ?_⟩⟩
    rw [Text.ofBytes?_toBytes]
    rfl

/-! ## Attribute groups without a meaning -/

namespace LittleEndian

/-- A word of the bits that two numbers share has, in each byte, the bits that
their bytes share. -/
theorem encode_and (width m n : Nat) :
    encode width (m &&& n) = List.zipWith (· &&& ·) (encode width m) (encode width n) := by
  induction width generalizing m n with
  | zero => rfl
  | succ width ih =>
    have hbyte : UInt8.ofNat (m &&& n) = UInt8.ofNat m &&& UInt8.ofNat n := by
      apply UInt8.toNat_inj.1
      simp only [UInt8.toNat_ofNat', UInt8.toNat_and]
      exact Nat.and_mod_two_pow
    have hrest : (m &&& n) / 256 = m / 256 &&& n / 256 := Nat.and_div_two_pow (n := 8)
    simp only [encode, List.zipWith_cons_cons, hbyte, hrest, ih]

end LittleEndian

/-- The bytes of the set of all attribute groups that have a meaning. -/
def AttrMask.allBytes : Bytes := LittleEndian.encode 8 AttrMask.all.bits.toNat

/-- The bytes with the groups that have no meaning taken out of the set that
stands behind the first `n` of them. -/
def AttrMask.clear (n : Nat) (bs : Bytes) : Bytes :=
  bs.take n ++ List.zipWith (· &&& ·) ((bs.drop n).take 8) allBytes ++ bs.drop (n + 8)

namespace AttrMask

theorem length_clear (n : Nat) (bs : Bytes) : (clear n bs).length = bs.length := by
  have hall : allBytes.length = 8 := LittleEndian.length_encode ..
  simp only [clear, List.length_append, List.length_zipWith, List.length_take, List.length_drop,
    hall]
  omega

/-- Only the bytes behind the front change. -/
theorem clear_append {n : Nat} {front : Bytes} (h : front.length = n) (k : Nat) (bs : Bytes) :
    clear (n + k) (front ++ bs) = front ++ clear k bs := by
  subst h
  have hk : front.length + k + 8 = front.length + (k + 8) := Nat.add_assoc ..
  simp only [clear, hk, List.take_append, List.drop_append, List.take_of_length_le,
    List.drop_of_length_le, Nat.le_add_right, Nat.add_sub_cancel_left, List.nil_append,
    List.append_assoc]

/-- Nothing behind the set changes. -/
theorem clear_zero_append {word : Bytes} (h : word.length = 8) (bs : Bytes) :
    clear 0 (word ++ bs) = clear 0 word ++ bs := by
  have htake : (word ++ bs).take 8 = word.take 8 := List.take_append_of_le_length (by omega)
  have hdrop : (word ++ bs).drop 8 = bs := List.drop_left' h
  have hnil : word.drop 8 = [] := List.drop_of_length_le (by omega)
  simp only [clear, List.take_zero, List.drop_zero, List.nil_append, Nat.zero_add, htake, hdrop,
    hnil, List.append_nil]

theorem clear_zero_word {word : Bytes} (h : word.length = 8) :
    clear 0 word = List.zipWith (· &&& ·) word allBytes := by
  simp only [clear, List.take_zero, List.drop_zero, List.nil_append, Nat.zero_add,
    List.take_of_length_le (Nat.le_of_eq h), List.drop_of_length_le (Nat.le_of_eq h),
    List.append_nil]

end AttrMask

/-- Where the set of attribute groups stands in the fields of a message. -/
def MessageType.maskAt? : MessageType → Option Nat
  | .tgetattr => some 4
  | .rgetattr => some 0
  | _ => none

/-- The fields of a message, behind the first `n` bytes, as a receiver understands
them. -/
def MessageType.understood (type : MessageType) (n : Nat) (bs : Bytes) : Bytes :=
  match type.maskAt? with
  | some k => AttrMask.clear (n + k) bs
  | none => bs

namespace MessageType

variable {type : MessageType}

theorem length_understood (n : Nat) (bs : Bytes) : (type.understood n bs).length = bs.length := by
  unfold understood
  split
  · exact AttrMask.length_clear ..
  · rfl

theorem understood_append {n : Nat} {front : Bytes} (h : front.length = n) (k : Nat) (bs : Bytes) :
    type.understood (n + k) (front ++ bs) = front ++ type.understood k bs := by
  unfold understood
  split
  · rw [Nat.add_assoc, AttrMask.clear_append h]
  · rfl

end MessageType

namespace Mirrors

/-- A set of attribute groups is written back without those that have no
meaning. -/
theorem mask :
    Mirrors (fun xs ys => ys = AttrMask.clear 0 xs ∧ xs.length = 8) Codec.mask.decode
      Codec.mask.encode := by
  intro bs rest v hr
  obtain ⟨bits, hbits, rfl⟩ := Reader.map_eq_ok.1 hr
  obtain ⟨front, hb, hn, rfl⟩ := Reader.word_eq_ok.1 hbits
  have hlt : LittleEndian.decode front < 2 ^ 64 := by
    have := LittleEndian.decode_lt front
    rwa [hn] at this
  have hback : LittleEndian.encode 8
      (UInt64.ofNat (LittleEndian.decode front) &&& AttrMask.all.bits).toNat =
        AttrMask.clear 0 front := by
    rw [UInt64.toNat_and, UInt64.toNat_ofNat_of_lt' hlt, LittleEndian.encode_and,
      AttrMask.clear_zero_word hn, AttrMask.allBytes]
    congr 1
    rw [← hn, LittleEndian.encode_decode]
  refine ⟨front, AttrMask.clear 0 front, hb, ?_, rfl, hn⟩
  have hw := (Writer.Writes.write (AttrMask.clear 0 front)).bind_pure fun _ => 8
  rw [AttrMask.length_clear, hn]
  show (Codec.u64.encode (UInt64.ofNat (LittleEndian.decode front) &&& AttrMask.all.bits)).Writes _ _
  simp only [Codec.u64, Codec.word, hback]
  exact hw

theorem attr :
    Mirrors (fun xs ys => ys = AttrMask.clear 0 xs) Codec.attr.decode Codec.attr.encode := by
  have hrest := qid.pair (stat.pair (time.pair (u64.pair u64)))
  refine (mask.pair_of hrest fun xs xs' ys ys' hx hy => ?_).imap fun _ => rfl
  rw [hx.1, ← hy, AttrMask.clear_zero_append hx.2]

/-- The fields of a message are written back as a receiver understands them. -/
theorem body (type : MessageType) :
    Mirrors (fun xs ys => ys = type.understood 0 xs) (Codec.decodeBody type) Codec.encodeBody := by
  have plain {α : Type} {c : Codec α} {f : α → Body} (hc : Canonical c)
      (ht : type.maskAt? = none) (hf : ∀ a, Codec.encodeBody (f a) = c.encode a) :
      Mirrors (fun xs ys => ys = type.understood 0 xs) (f <$> c.decode) Codec.encodeBody := by
    refine (hc.map hf).mono fun xs ys h => ?_
    rw [MessageType.understood, ht, h]
  cases type with
  | tlerror =>
    intro bs rest v hr
    cases hr
  | rlerror => exact plain u32 rfl fun _ => rfl
  | tstatfs => exact plain u32 rfl fun _ => rfl
  | rstatfs => exact plain fsStat rfl fun _ => rfl
  | tlopen => exact plain (u32.pair u32) rfl fun _ => rfl
  | rlopen => exact plain (qid.pair u32) rfl fun _ => rfl
  | treadlink => exact plain u32 rfl fun _ => rfl
  | rreadlink => exact plain text rfl fun _ => rfl
  | tgetattr =>
    refine Mirrors.map (u32_width.pair_of mask fun xs xs' ys ys' hx hy => ?_) fun _ => rfl
    show xs' ++ ys' = AttrMask.clear (0 + 4) (xs ++ ys)
    rw [hx.1, hy.1, Nat.zero_add, ← AttrMask.clear_append hx.2 0]
  | rgetattr => exact attr.map fun _ => rfl
  | treaddir => exact plain (u32.pair (u64.pair u32)) rfl fun _ => rfl
  | rreaddir => exact plain listing rfl fun _ => rfl
  | tattach => exact plain (u32.pair (u32.pair (text.pair text))) rfl fun _ => rfl
  | rattach => exact plain qid rfl fun _ => rfl
  | tversion => exact plain (u32.pair text) rfl fun _ => rfl
  | rversion => exact plain (u32.pair text) rfl fun _ => rfl
  | twalk => exact plain (u32.pair (u32.pair (vector text))) rfl fun _ => rfl
  | rwalk => exact plain (vector qid) rfl fun _ => rfl
  | tread => exact plain (u32.pair (u64.pair u32)) rfl fun _ => rfl
  | rread => exact plain payload rfl fun _ => rfl
  | tclunk => exact plain u32 rfl fun _ => rfl
  | rclunk =>
    intro bs rest v hr
    obtain ⟨rfl, rfl⟩ := Reader.pure_eq_ok.1 hr
    exact ⟨[], [], rfl, Writer.Writes.pure 0, rfl⟩

end Mirrors

end NineP
