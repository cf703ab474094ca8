import NineP.Proofs.Wire.Delimited

/-!
# The number of bytes that a writer tells

A writer adds up a number beside its writing: from the widths of words, the lengths of
texts and payloads and the numbers that the parts of a value told. Whatever the value, it is
the number of the bytes that were written. Only a text that is too long for its count is
refused; what stands in front of it has been written by then:

* `Writer.Breaks`: a writer that fails, and what it writes before;
* `Writer.Tells`: the law of a writer that tells how many bytes it writes, kept by each way
  to put writers together;
* `WireType.tells`: the law of every type on the wire, by induction on the type;
* `WireValue.writes_bytes`, `WireValue.breaks_bytes`: a value is written as its bytes, or
  breaks off behind them;
* `WireValue.bytes_eq_nil_iff`: of a value with a text that is too long some bytes are
  written, unless it is that text.
-/

namespace NineP

namespace Writer

/-- `w` writes `bs` and then fails with `e`; if there is no room for all of `bs`, it fills
the sink up and fails with that. -/
structure Breaks (w : Writer α) (e : Fault) (bs : Bytes) : Prop where
  fits {s : Sink} : s.Fits bs → w.runOn s = (.error e, s.push bs)
  full {s : Sink} : ¬ s.Fits bs → w.runOn s = (.error .bufferFull, s.push bs)

theorem Breaks.throw (e : Fault) : Breaks (MonadExcept.throw e : Writer α) e [] where
  fits {s} _ := by
    rw [Sink.push_nil]
    rfl
  full h := absurd (fun _ _ => Nat.zero_le _) h

theorem Breaks.bind {w : Writer α} {e : Fault} {bs : Bytes} (h : w.Breaks e bs)
    (f : α → Writer β) : (w >>= f).Breaks e bs where
  fits hs := runOn_bind_error (h.fits hs) f
  full hs := runOn_bind_error (h.full hs) f

theorem Writes.bind_breaks {w : Writer α} {f : α → Writer β} {a : α} {e : Fault} {xs ys : Bytes}
    (hw : w.Writes a xs) (hf : (f a).Breaks e ys) : (w >>= f).Breaks e (xs ++ ys) where
  fits {s} h := by
    obtain ⟨hx, hy⟩ := Sink.fits_append.1 h
    rw [runOn_bind_ok (hw.fits hx), hf.fits hy, Sink.push_push]
  full {s} h := by
    by_cases hx : s.Fits xs
    · have hy : ¬ (s.push xs).Fits ys := fun hy => h (Sink.fits_append.2 ⟨hx, hy⟩)
      rw [runOn_bind_ok (hw.fits hx), hf.full hy, Sink.push_push]
    · rw [runOn_bind_error (hw.full hx), Sink.push_append_of_not_fits hx]

theorem text_encode_of_lt {s : String} (h : Codec.maxTextSize < s.utf8ByteSize) :
    Codec.text.encode s = MonadExcept.throw .textTooLong := by
  simp only [Codec.text, gt_iff_lt, h, if_true]
  rfl

/-- A text that is too long is refused before anything is written. -/
theorem Breaks.text {s : String} (h : Codec.maxTextSize < s.utf8ByteSize) :
    (Codec.text.encode s).Breaks .textTooLong [] :=
  text_encode_of_lt h ▸ .throw _

/-- `w` tells `n` and the number of bytes that it writes, if `fits`; otherwise it breaks off
at a text that is too long. In either case it writes at least `least` bytes. -/
structure Tells (w : Writer Nat) (n : Nat) (fits : Prop) (least : Nat) : Prop where
  writes : fits → ∃ bs, w.Writes (n + bs.length) bs ∧ least ≤ bs.length
  breaks : ¬ fits → ∃ bs, w.Breaks .textTooLong bs ∧ least ≤ bs.length

namespace Tells

variable {w : Writer Nat} {n least least' : Nat} {f g : Prop}

theorem congr (h : w.Tells n f least) (hf : g ↔ f) (hl : least' ≤ least) :
    w.Tells n g least' where
  writes hg := by
    obtain ⟨bs, hw, hn⟩ := h.writes (hf.1 hg)
    exact ⟨bs, hw, Nat.le_trans hl hn⟩
  breaks hg := by
    obtain ⟨bs, hw, hn⟩ := h.breaks fun hx => hg (hf.2 hx)
    exact ⟨bs, hw, Nat.le_trans hl hn⟩

theorem of_writes {bs : Bytes} (h : w.Writes (n + bs.length) bs) : w.Tells n True bs.length where
  writes _ := ⟨bs, h, Nat.le_refl _⟩
  breaks hf := absurd trivial hf

theorem of_carries {r : Reader β} {size surplus : Nat} {b : β}
    (h : Carries w r True size surplus b) : w.Tells 0 True size := by
  obtain ⟨bs, extra, hw, rfl, -⟩ := h.writes trivial
  exact of_writes ((Nat.zero_add bs.length).symm ▸ hw)

theorem pure (n : Nat) : Tells (Pure.pure n) n True 0 := by
  have h : Writes (Pure.pure n : Writer Nat) (n + ([] : Bytes).length) [] := .pure n
  exact of_writes h

theorem write (bs : Bytes) (n : Nat) :
    Tells (Writer.write bs >>= fun _ => Pure.pure (n + bs.length)) n True bs.length :=
  of_writes ((Writes.write bs).bind_pure fun _ => n + bs.length)

/-- A writer goes on from what another one told. -/
theorem bind {k : Nat → Writer Nat} (hw : w.Tells 0 f least)
    (hk : ∀ m, (k m).Tells (n + m) g least') : (w >>= k).Tells n (f ∧ g) least where
  writes h := by
    obtain ⟨xs, hx, hl⟩ := hw.writes h.1
    obtain ⟨ys, hy, -⟩ := (hk xs.length).writes h.2
    rw [Nat.zero_add] at hx
    rw [Nat.add_assoc, ← List.length_append] at hy
    exact ⟨xs ++ ys, hx.bind hy, by rw [List.length_append]; omega⟩
  breaks h := by
    by_cases hf : f
    · obtain ⟨xs, hx, hl⟩ := hw.writes hf
      obtain ⟨ys, hy, -⟩ := (hk (0 + xs.length)).breaks fun hg => h ⟨hf, hg⟩
      exact ⟨xs ++ ys, hx.bind_breaks hy, by rw [List.length_append]; omega⟩
    · obtain ⟨xs, hx, hl⟩ := hw.breaks hf
      exact ⟨xs, hx.bind k, hl⟩

/-- The first writer of several. -/
theorem bind_first {k : Nat → Writer Nat} (hw : w.Tells 0 f least)
    (hk : ∀ m, (k m).Tells m g least') : (w >>= k).Tells 0 (f ∧ g) least := by
  have hzero (m : Nat) : (k m).Tells (0 + m) g least' := by
    rw [Nat.zero_add]
    exact hk m
  exact hw.bind hzero

/-- What a writer told is added to what was told before. -/
theorem add (hw : w.Tells 0 f least) (n : Nat) :
    (w >>= fun m => Pure.pure (n + m)).Tells n f least :=
  (hw.bind fun m => pure (n + m)).congr (and_true f).symm.to_iff (Nat.le_refl _)

/-- The numbers that were told for the elements are added up. -/
theorem total {k : α → Writer Nat} {fits : α → Prop} {xs : List α}
    (h : ∀ x ∈ xs, (k x).Tells 0 (fits x) least) (n : Nat) :
    (Writer.total k n xs).Tells n (∀ x ∈ xs, fits x) 0 := by
  induction xs generalizing n with
  | nil => exact (pure n).congr (by simp) (Nat.le_refl _)
  | cons x xs ih =>
    obtain ⟨hx, hxs⟩ := List.forall_mem_cons.1 h
    exact (hx.bind fun m => ih hxs (n + m)).congr List.forall_mem_cons (Nat.zero_le _)

/-! ## Codecs -/

theorem pair {c : Codec α} {d : Codec β} {x : α} {y : β} (hx : Tells (c.encode x) 0 f least)
    (hy : Tells (d.encode y) 0 g least') : Tells ((c.pair d).encode (x, y)) 0 (f ∧ g) least :=
  hx.bind_first fun m => hy.add m

theorem vector {c : Codec α} {fits : α → Prop} {xs : List α}
    (h : ∀ x ∈ xs, Tells (c.encode x) 0 (fits x) least) :
    Tells (c.vector.encode xs) 0 (∀ x ∈ xs, fits x) 2 := by
  have hcount := of_carries (Carries.u16 (UInt16.ofNat xs.length))
  exact (hcount.bind_first fun m => total h m).congr (by simp) (Nat.le_refl _)

theorem payload (bs : Bytes) : Tells (Codec.payload.encode bs) 0 True 4 := by
  have hcount := of_carries (Carries.u32 (UInt32.ofNat bs.length))
  exact (hcount.bind_first fun m => write bs m).congr (by simp) (Nat.le_refl _)

theorem text (s : String) :
    Tells (Codec.text.encode s) 0 (s.utf8ByteSize ≤ Codec.maxTextSize) 0 where
  writes hs := by
    obtain ⟨bs, extra, hw, -⟩ := (Carries.text s).writes hs
    exact ⟨bs, (Nat.zero_add bs.length).symm ▸ hw, Nat.zero_le _⟩
  breaks hs := ⟨[], .text (Nat.lt_of_not_le hs), Nat.zero_le _⟩

theorem dirEntry (e : DirEntry) :
    Tells (Codec.dirEntry.encode e) 0 (e.name.utf8ByteSize ≤ Codec.maxTextSize) 13 := by
  have h := (of_carries (Carries.qid e.qid)).pair
    ((of_carries (Carries.u64 e.cookie)).pair ((of_carries (Carries.u8 e.typ)).pair (text e.name)))
  exact h.congr (by simp) (Nat.le_refl _)

theorem listing (entries : List DirEntry) :
    Tells (Codec.listing.encode entries) 0
      (∀ e ∈ entries, e.name.utf8ByteSize ≤ Codec.maxTextSize) 4 := by
  have hcount := of_carries (Carries.u32 (DirEntry.listingSize entries))
  exact (hcount.bind_first fun m => total (fun e _ => dirEntry e) m).congr (by simp) (Nat.le_refl _)

/-- The fields of a message, however long its lists and its payload are. -/
theorem body (b : Body) :
    Tells (Codec.encodeBody b) 0 (∀ s ∈ b.texts, s.utf8ByteSize ≤ Codec.maxTextSize) 0 := by
  have word (v : UInt32) := of_carries (Carries.u32 v)
  have plain {b : Body} (ht : b.texts = []) (hp : b.PayloadFits) :
      Tells (Codec.encodeBody b) 0 (∀ s ∈ b.texts, s.utf8ByteSize ≤ Codec.maxTextSize) 0 :=
    (of_carries ((Carries.body hp).congr (by simp [ht]) rfl)).congr (by simp [ht]) (Nat.zero_le _)
  cases b with
  | rreadlink target => exact (text target).congr (by simp [Body.texts]) (Nat.zero_le _)
  | rreaddir entries => exact (listing entries).congr (by simp [Body.texts]) (Nat.zero_le _)
  | tattach fid afid uname aname =>
    exact ((word fid).pair ((word afid).pair ((text uname).pair (text aname)))).congr
      (by simp [Body.texts]) (Nat.zero_le _)
  | tversion msize version | rversion msize version =>
    exact ((word msize).pair (text version)).congr (by simp [Body.texts]) (Nat.zero_le _)
  | twalk fid newfid names =>
    exact ((word fid).pair ((word newfid).pair (vector fun s _ => text s))).congr
      (by simp [Body.texts]) (Nat.zero_le _)
  | rread data => exact (payload data).congr (by simp [Body.texts]) (Nat.zero_le _)
  | _ => exact plain rfl trivial

theorem message (m : Message) :
    Tells (Codec.message.encode m) 0
      (∀ s ∈ m.body.texts, s.utf8ByteSize ≤ Codec.maxTextSize) 1 := by
  have htype := of_carries (Carries.u8 m.body.type.id)
  have htag := of_carries (Carries.u16 m.tag)
  have h := htype.bind_first fun x => htag.bind fun y => (body m.body).add (x + y)
  exact h.congr (by simp) (Nat.le_refl _)

end Tells

end Writer

/-! ## The types on the wire -/

namespace WireType

/-- The texts in a value. -/
def texts : (t : WireType) → t.Value → List String
  | text, s => [s]
  | dirEntry, e => [e.name]
  | listing, entries => entries.map DirEntry.name
  | message, m => m.body.texts
  | vector element, xs => xs.flatMap element.texts
  | u8, _ | u16, _ | u32, _ | u64, _ | qid, _ | time, _ | stat, _ | attr, _ | fsStat, _
  | payload, _ => []

/-- The number of bytes that are written before a text can be refused: none in front of a text
that stands alone, and at least one in front of every other. -/
def least : WireType → Nat
  | text => 0
  | _ => 1

theorem least_of_ne {t : WireType} (h : t ≠ text) : t.least = 1 := by
  cases t with
  | text => exact absurd rfl h
  | _ => rfl

theorem tells (t : WireType) : ∀ v : t.Value, Writer.Tells (t.codec.encode v) 0
    (∀ s ∈ t.texts v, s.utf8ByteSize ≤ Codec.maxTextSize) t.least := by
  have plain {α : Type} {c : Codec α} {v b : α} {size : Nat} (hl : 1 ≤ size)
      (h : Carries (c.encode v) c.decode True size 0 b) :
      Writer.Tells (c.encode v) 0
        (∀ s ∈ ([] : List String), s.utf8ByteSize ≤ Codec.maxTextSize) 1 :=
    (Writer.Tells.of_carries h).congr (by simp) hl
  induction t with
  | u8 => exact fun v => plain (by decide) (Carries.u8 v)
  | u16 => exact fun v => plain (by decide) (Carries.u16 v)
  | u32 => exact fun v => plain (by decide) (Carries.u32 v)
  | u64 => exact fun v => plain (by decide) (Carries.u64 v)
  | text => exact fun s => (Writer.Tells.text s).congr (by simp [texts]) (by decide)
  | qid => exact fun q => plain (by decide) (Carries.qid q)
  | time => exact fun t => plain (by decide) (Carries.time t)
  | stat => exact fun s => plain (by decide) (Carries.stat s)
  | attr => exact fun a => plain (by decide) (Carries.attr a)
  | fsStat => exact fun s => plain (by decide) (Carries.fsStat s)
  | dirEntry => exact fun e => (Writer.Tells.dirEntry e).congr (by simp [texts]) (by decide)
  | listing => exact fun es => (Writer.Tells.listing es).congr (by simp [texts]) (by decide)
  | payload => exact fun bs => (Writer.Tells.payload bs).congr (by simp [texts]) (by decide)
  | message => exact fun m => Writer.Tells.message m
  | vector element ih =>
    intro xs
    refine (Writer.Tells.vector fun x _ => ih x).congr ?_ (Nat.le_succ 1)
    simp only [texts, List.mem_flatMap]
    grind

end WireType

/-! ## Values and their bytes -/

namespace WireValue

variable {v : WireValue}

/-- Whether a text in a value is too long for its count. -/
def overlong (v : WireValue) : Bool :=
  (v.1.texts v.2).any (Codec.maxTextSize < ·.utf8ByteSize)

theorem tells (v : WireValue) : v.encode.Tells 0 (v.overlong = false) v.1.least :=
  (v.1.tells v.2).congr (by simp [overlong]) (Nat.le_refl _)

theorem bytes_eq {result : Except Fault Nat} {bs : Bytes}
    (h : v.encode.runOn .growing = (result, Sink.growing.push bs)) : v.bytes = bs := by
  show (v.encode.runOn .growing).2.written = bs
  rw [h, Sink.written_push_growing]

/-- A value without a text that is too long is written as its bytes. -/
theorem writes_bytes (h : v.overlong = false) : v.encode.Writes v.bytes.length v.bytes := by
  obtain ⟨bs, hw, -⟩ := v.tells.writes h
  rw [bytes_eq (hw.fits (Sink.fits_of_growing rfl bs)), ← Nat.zero_add bs.length]
  exact hw

/-- The writing of any other value breaks off when its bytes have been written. -/
theorem breaks_bytes (h : v.overlong = true) : v.encode.Breaks .textTooLong v.bytes := by
  obtain ⟨bs, hw, -⟩ := v.tells.breaks (by simp [h])
  rwa [bytes_eq (hw.fits (Sink.fits_of_growing rfl bs))]

/-- A text alone is refused before anything is written. Every other value begins with a number
or an identity, so that a part of it has been written when one of its texts is refused. -/
theorem bytes_eq_nil_iff (h : v.overlong = true) : v.bytes = [] ↔ v.1 = .text := by
  obtain ⟨bs, hw, hl⟩ := v.tells.breaks (by simp [h])
  rw [bytes_eq (hw.fits (Sink.fits_of_growing rfl bs))]
  constructor
  · rintro rfl
    by_contra ht
    rw [WireType.least_of_ne ht] at hl
    cases hl
  · intro ht
    obtain ⟨t, x⟩ := v
    obtain rfl : t = .text := ht
    have hlong : Codec.maxTextSize < x.utf8ByteSize := by
      simpa [overlong, WireType.texts] using h
    have hnone := (Writer.Breaks.text hlong).fits (Sink.fits_of_growing (s := .growing) rfl [])
    have hrun := hw.fits (Sink.fits_of_growing (s := .growing) rfl bs)
    have hb := (congrArg (·.2.written) hrun).symm.trans (congrArg (·.2.written) hnone)
    simpa [Sink.written_push_growing] using hb

end WireValue

end NineP
