import NineP.Proofs.Wire.Tells

/-!
# Chains into buffers of every size

What a chain of values comes to in a buffer that grows decides what it comes to in a buffer of
any size. If it succeeds in the first, it succeeds in the second exactly as long as there is
room for all that it writes, with the same number and the same bytes; otherwise it fills the
buffer up. If it fails in the first, it fails in the second:

* `WireValue.encodeAll_writes`, `WireValue.encodeAll_breaks`: a chain writes the bytes of its
  values, unless one of them has a text that is too long;
* `Writer.Writes.listing`: the number that is told for a listing, however long it is;
* `WireValue.bounded_as_growing`: both kinds of buffers side by side;
* `WireValue.not_listing_told_size`: the size of a listing of 4 GiB wraps, the number that is
  told for it does not.
-/

namespace NineP

namespace Sink

theorem fits_bounded {limit : Nat} {bs : Bytes} : (bounded limit).Fits bs ↔ bs.length ≤ limit := by
  simp [Fits, bounded]

theorem written_push_bounded (limit : Nat) (bs : Bytes) :
    ((bounded limit).push bs).written = bs.take limit := by
  rw [written_push]
  rfl

end Sink

namespace Writer

variable {w : Writer α} {bs : Bytes} {limit : Nat}

theorem Writes.runOn_growing {a : α} (h : w.Writes a bs) {s : Sink} (hs : s.room = none) :
    ∃ t, w.runOn s = (.ok a, t) ∧ t.written = s.written ++ bs :=
  ⟨s.push bs, h.fits (Sink.fits_of_growing hs bs), by
    rw [Sink.written_push, Sink.front_growing hs]⟩

theorem Writes.runOn_bounded_of_le {a : α} (h : w.Writes a bs) (hl : bs.length ≤ limit) :
    ∃ t, w.runOn (.bounded limit) = (.ok a, t) ∧ t.written = bs :=
  ⟨_, h.fits (Sink.fits_bounded.2 hl), by
    rw [Sink.written_push_bounded, List.take_of_length_le hl]⟩

theorem Writes.runOn_bounded_of_lt {a : α} (h : w.Writes a bs) (hl : limit < bs.length) :
    ∃ t, w.runOn (.bounded limit) = (.error .bufferFull, t) ∧ t.written = bs.take limit :=
  ⟨_, h.full fun hf => Nat.not_le.2 hl (Sink.fits_bounded.1 hf), Sink.written_push_bounded ..⟩

/-- A writer that breaks off fails on every sink, though not always for the same reason. -/
theorem Breaks.runOn {e : Fault} (h : w.Breaks e bs) (s : Sink) :
    ∃ fault t, w.runOn s = (.error fault, t) := by
  by_cases hs : s.Fits bs
  · exact ⟨e, _, h.fits hs⟩
  · exact ⟨.bufferFull, _, h.full hs⟩

/-- What is told for a listing is the bytes of its size and those of its entries, even where
the size wraps. -/
theorem Writes.listing {entries : List DirEntry}
    (h : ∀ e ∈ entries, e.name.utf8ByteSize ≤ Codec.maxTextSize) :
    ∃ bs, (Codec.listing.encode entries).Writes (4 + (entries.map DirEntry.wireSize).sum) bs ∧
      bs.length = 4 + (entries.map DirEntry.wireSize).sum := by
  obtain ⟨field, -, hw, hn, -⟩ := (Carries.u32 (DirEntry.listingSize entries)).writes trivial
  obtain ⟨bs, hb, hwb, -⟩ := Carries.total (fun e (_ : e ∈ entries) => Carries.dirEntry e) h
  have hentries := hwb field.length
  rw [hb] at hentries
  rw [← hn]
  exact ⟨field ++ bs, hw.bind hentries, by rw [List.length_append, hb]⟩

end Writer

namespace WireValue

variable {vs : List WireValue}

theorem encodeAll_writes (h : ∀ v ∈ vs, v.overlong = false) :
    (encodeAll vs).Writes (bytesAll vs).length (bytesAll vs) := by
  have hw := Writer.Writes.total (fun v hv => writes_bytes (h v hv)) 0
  rwa [Nat.zero_add] at hw

theorem encodeAll_breaks (h : ¬ ∀ v ∈ vs, v.overlong = false) :
    ∃ bs, (encodeAll vs).Breaks .textTooLong bs := by
  have ht : (encodeAll vs).Tells 0 (∀ v ∈ vs, v.overlong = false) 0 :=
    .total (fun v _ => v.tells.congr Iff.rfl (Nat.zero_le _)) 0
  obtain ⟨bs, hb, -⟩ := ht.breaks h
  exact ⟨bs, hb⟩

/-- A chain succeeds in a buffer that grows exactly if no text in it is too long. -/
theorem encodeAll_ok_iff {s : Sink} (hs : s.room = none) :
    (∃ n t, (encodeAll vs).runOn s = (.ok n, t)) ↔ ∀ v ∈ vs, v.overlong = false := by
  constructor
  · rintro ⟨n, t, hrun⟩
    by_contra h
    obtain ⟨bs, hb⟩ := encodeAll_breaks h
    obtain ⟨fault, u, hfault⟩ := hb.runOn s
    rw [hfault] at hrun
    cases hrun
  · intro h
    obtain ⟨t, hrun, -⟩ := (encodeAll_writes h).runOn_growing hs
    exact ⟨_, t, hrun⟩

/-- What becomes of a listing of one entry over and over. -/
theorem encode_copies {e : DirEntry} {size : Nat} (hsize : e.name.utf8ByteSize = size)
    (hmax : size ≤ Codec.maxTextSize) (k : Nat) :
    (∀ x ∈ List.replicate k e, x.name.utf8ByteSize ≤ Codec.maxTextSize) ∧
    DirEntry.listingSize (List.replicate k e) = UInt32.ofNat (k * (24 + size)) ∧
    (∃ t, (encode ⟨.listing, List.replicate k e⟩).runOn .growing =
      (.ok (4 + k * (24 + size)), t)) ∧
    ∀ limit < 4 + k * (24 + size), ∃ t,
      (encode ⟨.listing, List.replicate k e⟩).runOn (.bounded limit) = (.error .bufferFull, t) := by
  have hnames : ∀ x ∈ List.replicate k e, x.name.utf8ByteSize ≤ Codec.maxTextSize := by
    intro x hx
    rwa [List.eq_of_mem_replicate hx, hsize]
  have hsum : ((List.replicate k e).map DirEntry.wireSize).sum = k * (24 + size) := by
    rw [List.map_replicate, List.sum_replicate_nat, DirEntry.wireSize, Text.wireSize, hsize,
      ← Nat.add_assoc]
  obtain ⟨bs, hw, hlen⟩ := Writer.Writes.listing hnames
  rw [hsum] at hw hlen
  obtain ⟨t, hrun, -⟩ := hw.runOn_growing (s := .growing) rfl
  refine ⟨hnames, by rw [DirEntry.listingSize_eq, hsum], ⟨t, hrun⟩, fun limit hless => ?_⟩
  obtain ⟨u, hfull, -⟩ := hw.runOn_bounded_of_lt (hlen ▸ hless)
  exact ⟨u, hfull⟩

/-- A name as long as a text can be. -/
def longestName : String := String.ofList (List.replicate Codec.maxTextSize 'a')

theorem utf8ByteSize_longestName : longestName.utf8ByteSize = Codec.maxTextSize := by
  rw [longestName, Text.utf8ByteSize_replicate]
  rfl

/-- A chain that succeeds in a buffer that grows tells the number of the bytes that it adds
to the buffer, and these are what its values are written as alone, one after the other. In a
buffer of a given size it then tells the same and writes the same if the number is at most
the size; otherwise it fills the buffer up and fails because nothing more can be written.
A chain that fails in a buffer that grows fails in every other. It does so exactly if a text
in one of its values is too long. What is told for a listing without such names is four more
than the size of the listing, as 32-bit words and, if the size does not wrap, as numbers. -/
theorem bounded_as_growing (vs : List WireValue) {s : Sink} (hs : s.room = none) :
    ((∃ n t, (encodeAll vs).runOn s = (.ok n, t)) ↔ ∀ v ∈ vs, v.overlong = false) ∧
    (∀ n t, (encodeAll vs).runOn s = (.ok n, t) →
      n = (bytesAll vs).length ∧ t.written = s.written ++ bytesAll vs ∧
      (∀ v ∈ vs, ∃ u, v.encode.runOn .growing = (.ok v.bytes.length, u) ∧ u.written = v.bytes) ∧
      ∀ limit,
        (n ≤ limit → ∃ u, (encodeAll vs).runOn (.bounded limit) = (.ok n, u) ∧
          u.written = bytesAll vs) ∧
        (limit < n → ∃ fault u, (encodeAll vs).runOn (.bounded limit) = (.error fault, u) ∧
          fault.kind = .writeZero ∧ u.written = (bytesAll vs).take limit)) ∧
    (∀ fault t, (encodeAll vs).runOn s = (.error fault, t) → ∀ limit, ∃ fault' u,
      (encodeAll vs).runOn (.bounded limit) = (.error fault', u)) ∧
    ∀ entries : List DirEntry, (∀ e ∈ entries, e.name.utf8ByteSize ≤ Codec.maxTextSize) →
      ∃ n t, (encode ⟨.listing, entries⟩).runOn s = (.ok n, t) ∧
        UInt32.ofNat n = 4 + DirEntry.listingSize entries ∧
        ((entries.map DirEntry.wireSize).sum < 2 ^ 32 →
          n = 4 + (DirEntry.listingSize entries).toNat) := by
  refine ⟨encodeAll_ok_iff hs, fun n t hrun => ?_, fun fault t hrun limit => ?_,
    fun entries hnames => ?_⟩
  · have hfit := (encodeAll_ok_iff hs).1 ⟨n, t, hrun⟩
    have hw := encodeAll_writes hfit
    obtain ⟨t', hrun', ht⟩ := hw.runOn_growing hs
    rw [hrun] at hrun'
    obtain ⟨hn, rfl⟩ := Prod.mk.inj hrun'
    obtain rfl := Except.ok.inj hn
    refine ⟨rfl, ht, fun v hv => (writes_bytes (hfit v hv)).runOn_growing rfl, fun limit => ?_⟩
    refine ⟨hw.runOn_bounded_of_le, fun hless => ?_⟩
    obtain ⟨u, hu, hwritten⟩ := hw.runOn_bounded_of_lt hless
    exact ⟨.bufferFull, u, hu, rfl, hwritten⟩
  · have hlong : ¬ ∀ v ∈ vs, v.overlong = false := fun h => by
      obtain ⟨n, u, hok⟩ := (encodeAll_ok_iff hs).2 h
      rw [hrun] at hok
      cases hok
    obtain ⟨bs, hb⟩ := encodeAll_breaks hlong
    exact hb.runOn _
  · obtain ⟨bs, hw, -⟩ := Writer.Writes.listing hnames
    obtain ⟨t, hrun, -⟩ := hw.runOn_growing hs
    refine ⟨_, t, hrun, ?_, fun hless => ?_⟩
    · rw [UInt32.ofNat_add, DirEntry.listingSize_eq]
      rfl
    · rw [DirEntry.toNat_listingSize hless]

/-- A byte and a short name take five bytes. In a buffer of four there is no room for the last
letter. The listing of one entry without a name has a size of 24, and 28 is told for it. -/
theorem bounded_as_growing_five_bytes_and_entry :
    Sink.growing.room = none ∧
      (∃ t, (encodeAll [⟨.u8, 7⟩, ⟨.text, "ab"⟩]).runOn .growing = (.ok 5, t) ∧
        t.written = [7, 2, 0, 97, 98]) ∧
      (∃ t, (encodeAll [⟨.u8, 7⟩, ⟨.text, "ab"⟩]).runOn (.bounded 5) = (.ok 5, t) ∧
        t.written = [7, 2, 0, 97, 98]) ∧
      (∃ fault t, (encodeAll [⟨.u8, 7⟩, ⟨.text, "ab"⟩]).runOn (.bounded 4) = (.error fault, t) ∧
        fault.kind = .writeZero ∧ t.written = [7, 2, 0, 97]) ∧
      (∀ e ∈ [({} : DirEntry)], e.name.utf8ByteSize ≤ Codec.maxTextSize) ∧
      ([({} : DirEntry)].map DirEntry.wireSize).sum < 2 ^ 32 ∧
      DirEntry.listingSize [{}] = 24 ∧
      ∃ t, (encode ⟨.listing, [{}]⟩).runOn .growing = (.ok 28, t) := by
  obtain ⟨hiff, hok, -, hlisting⟩ :=
    bounded_as_growing [⟨.u8, 7⟩, ⟨.text, "ab"⟩] (s := .growing) rfl
  obtain ⟨n, t, hrun⟩ := hiff.2 (by decide)
  obtain ⟨hn, ht, -, hlimit⟩ := hok n t hrun
  have hall : bytesAll [⟨.u8, 7⟩, ⟨.text, "ab"⟩] = [7, 2, 0, 97, 98] := by rfl
  rw [hall] at hn ht hlimit
  subst hn
  have hname : ∀ e ∈ [({} : DirEntry)], e.name.utf8ByteSize ≤ Codec.maxTextSize := by decide
  have hless : ([({} : DirEntry)].map DirEntry.wireSize).sum < 2 ^ 32 := by decide
  have hsize : DirEntry.listingSize [{}] = 24 := by decide
  obtain ⟨m, u, hentry, -, hm⟩ := hlisting [{}] hname
  obtain rfl : m = 28 := by rw [hm hless, hsize]; rfl
  exact ⟨rfl, ⟨t, hrun, ht⟩, (hlimit 5).1 (Nat.le_refl 5), (hlimit 4).2 (Nat.lt_succ_self 4),
    hname, hless, hsize, u, hentry⟩

/-- What is told for a listing is not always four more than its size. 178956971 entries without
a name are written in 4294967304 bytes, and their size is eight. So it is with 65514 entries
that have the longest name: they do not fit where there is room for four bytes and their
size. -/
theorem not_listing_told_size :
    (∀ e ∈ List.replicate 178956971 ({} : DirEntry),
      e.name.utf8ByteSize ≤ Codec.maxTextSize) ∧
    (∃ t, (encode ⟨.listing, List.replicate 178956971 {}⟩).runOn .growing =
      (.ok 4294967308, t)) ∧
    4 + (DirEntry.listingSize (List.replicate 178956971 {})).toNat = 12 ∧
    (∀ e ∈ List.replicate 65514 ({ name := longestName } : DirEntry),
      e.name.utf8ByteSize ≤ Codec.maxTextSize) ∧
    (∃ t, (encode ⟨.listing, List.replicate 65514 { name := longestName }⟩).runOn .growing =
      (.ok 4295032330, t)) ∧
    4 + (DirEntry.listingSize (List.replicate 65514 { name := longestName })).toNat = 65034 ∧
    ∃ t, (encode ⟨.listing, List.replicate 65514 { name := longestName }⟩).runOn
      (.bounded 65034) = (.error .bufferFull, t) := by
  obtain ⟨hnames, hsize, hrun, -⟩ := encode_copies (e := {}) rfl (Nat.zero_le _) 178956971
  obtain ⟨hnames', hsize', hrun', hfull⟩ :=
    encode_copies (e := { name := longestName }) utf8ByteSize_longestName (Nat.le_refl _) 65514
  refine ⟨hnames, hrun, ?_, hnames', hrun', ?_, hfull 65034 (by decide)⟩
  · rw [hsize]
    rfl
  · rw [hsize']
    rfl

end WireValue

end NineP
