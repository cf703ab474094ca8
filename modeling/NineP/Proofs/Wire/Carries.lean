import Mathlib.Algebra.Ring.Nat
import NineP.Wire.Codec

/-!
# What a writer writes and a reader reads

The law of a codec at a value, stated without the sink and the rest of the
input that its two directions work on:

* `Writer.Writes.bind`: writing one thing after another writes the bytes of
  both, into growing and bounded sinks alike;
* `Reader.Reads.bind`: bytes that are read one after the other are read in one;
* `Carries`: a value that fits is written in so many bytes, of which so many are
  left over when it is read back, and a value that does not fit is refused;
* `Carries.pair`, `Carries.map`, `Carries.vector`: the law of a composite codec
  follows from those of its parts. A vector whose count wraps leaves the
  elements behind the count.
-/

namespace NineP

namespace Sink

/-- The first of the bytes, as many as there is room for. -/
def front (s : Sink) (bs : Bytes) : Bytes :=
  match s.room with
  | none => bs
  | some room => bs.take room

/-- Whether there is room for all of the bytes. -/
def Fits (s : Sink) (bs : Bytes) : Prop := ∀ room ∈ s.room, bs.length ≤ room

/-- The sink with the bytes behind those in it, as many as there is room for. -/
def push (s : Sink) (bs : Bytes) : Sink where
  reversed := (s.front bs).reverse ++ s.reversed
  room := s.room.map (· - bs.length)

theorem fits_of_growing {s : Sink} (h : s.room = none) (bs : Bytes) : s.Fits bs := by
  simp [Fits, h]

theorem room_push_growing {s : Sink} (h : s.room = none) (bs : Bytes) :
    (s.push bs).room = none := by
  simp [push, h]

theorem written_push (s : Sink) (bs : Bytes) : (s.push bs).written = s.written ++ s.front bs := by
  simp [push, written]

theorem front_growing {s : Sink} (h : s.room = none) (bs : Bytes) : s.front bs = bs := by
  simp [front, h]

theorem written_push_growing (bs : Bytes) : (growing.push bs).written = bs := by
  simp [growing, push, front, written]

theorem push_nil (s : Sink) : s.push [] = s := by
  obtain ⟨reversed, _ | room⟩ := s <;> simp [push, front]

theorem push_push (s : Sink) (xs ys : Bytes) : (s.push xs).push ys = s.push (xs ++ ys) := by
  obtain ⟨reversed, _ | room⟩ := s
  · simp [push, front]
  · simp [push, front, List.take_append, Nat.sub_sub]

theorem fits_append {s : Sink} {xs ys : Bytes} :
    s.Fits (xs ++ ys) ↔ s.Fits xs ∧ (s.push xs).Fits ys := by
  obtain ⟨reversed, _ | room⟩ := s
  · simp [Fits, push]
  · simp only [Fits, push, Option.mem_def, Option.some.injEq, forall_eq', Option.map_some,
      List.length_append]
    omega

/-- Nothing is added behind bytes that did not fit. -/
theorem push_append_of_not_fits {s : Sink} {xs : Bytes} (h : ¬ s.Fits xs) (ys : Bytes) :
    s.push (xs ++ ys) = s.push xs := by
  obtain ⟨reversed, _ | room⟩ := s
  · exact absurd (fits_of_growing rfl xs) h
  · simp only [Fits, Option.mem_def, Option.some.injEq, forall_eq', Nat.not_le] at h
    have h0 : room - xs.length = 0 := by omega
    have h1 : room - (xs.length + ys.length) = 0 := by omega
    simp [push, front, List.take_append, h0, h1]

end Sink

namespace Writer

theorem runOn_pure (a : α) (s : Sink) : (pure a : Writer α).runOn s = (.ok a, s) := rfl

theorem runOn_bind_ok {w : Writer α} {a : α} {s t : Sink} (h : w.runOn s = (.ok a, t))
    (f : α → Writer β) : (w >>= f).runOn s = (f a).runOn t := by
  have hr : w s = (_, t) := h
  show StateT.bind w (ExceptT.bindCont f) s = _
  rw [StateT.bind, hr]
  rfl

theorem runOn_bind_error {w : Writer α} {e : Fault} {s t : Sink} (h : w.runOn s = (.error e, t))
    (f : α → Writer β) : (w >>= f).runOn s = (.error e, t) := by
  have hr : w s = (_, t) := h
  show StateT.bind w (ExceptT.bindCont f) s = _
  rw [StateT.bind, hr]
  rfl

/-- `w` writes `bs` and ends with `a`; if there is no room for all of `bs`, it
fills the sink up and fails. -/
structure Writes (w : Writer α) (a : α) (bs : Bytes) : Prop where
  fits {s : Sink} : s.Fits bs → w.runOn s = (.ok a, s.push bs)
  full {s : Sink} : ¬ s.Fits bs → w.runOn s = (.error .bufferFull, s.push bs)

/-- `w` fails on every sink, and on a growing one because a text is too
long. -/
def Refuses (w : Writer α) : Prop :=
  ∀ s : Sink, ∃ e t, w.runOn s = (.error e, t) ∧ (s.room = none → e = .textTooLong)

theorem Writes.pure (a : α) : Writes (Pure.pure a : Writer α) a [] where
  fits _ := by rw [runOn_pure, Sink.push_nil]
  full h := absurd (fun _ _ => Nat.zero_le _) h

theorem Writes.bind {w : Writer α} {f : α → Writer β} {a : α} {b : β} {xs ys : Bytes}
    (hw : Writes w a xs) (hf : Writes (f a) b ys) : Writes (w >>= f) b (xs ++ ys) where
  fits {s} h := by
    obtain ⟨hx, hy⟩ := Sink.fits_append.1 h
    rw [runOn_bind_ok (hw.fits hx), hf.fits hy, Sink.push_push]
  full {s} h := by
    by_cases hx : s.Fits xs
    · have hy : ¬ (s.push xs).Fits ys := fun hy => h (Sink.fits_append.2 ⟨hx, hy⟩)
      rw [runOn_bind_ok (hw.fits hx), hf.full hy, Sink.push_push]
    · rw [runOn_bind_error (hw.full hx), Sink.push_append_of_not_fits hx]

/-- Writing and then telling something else about it. -/
theorem Writes.bind_pure {w : Writer α} {a : α} {bs : Bytes} (hw : Writes w a bs) (f : α → β) :
    Writes (w >>= fun x => Pure.pure (f x)) (f a) bs := by
  simpa using hw.bind (f := fun x => Pure.pure (f x)) (Writes.pure (f a))

theorem Writes.write (bs : Bytes) : Writes (Writer.write bs) () bs where
  fits {s} h := by
    obtain ⟨reversed, _ | room⟩ := s
    · exact written_write_growing bs _ rfl
    · have hle : bs.length ≤ room := h room rfl
      simp [Writer.write, runOn, Sink.push, Sink.front, List.reverseAux_eq, hle]
  full {s} h := by
    obtain ⟨reversed, _ | room⟩ := s
    · exact absurd (Sink.fits_of_growing rfl bs) h
    · simp only [Sink.Fits, Option.mem_def, Option.some.injEq, forall_eq'] at h
      have hm : min room bs.length = room := by omega
      simp [Writer.write, runOn, Sink.push, Sink.front, List.reverseAux_eq, h, hm]
      omega

theorem Refuses.bind {w : Writer α} (h : Refuses w) (f : α → Writer β) : Refuses (w >>= f) := by
  intro s
  obtain ⟨e, t, hr, hg⟩ := h s
  exact ⟨e, t, runOn_bind_error hr f, hg⟩

theorem Writes.bind_refuses {w : Writer α} {f : α → Writer β} {a : α} {bs : Bytes}
    (hw : Writes w a bs) (hf : Refuses (f a)) : Refuses (w >>= f) := by
  intro s
  by_cases hs : s.Fits bs
  · obtain ⟨e, t, hr, hg⟩ := hf (s.push bs)
    exact ⟨e, t, by rw [runOn_bind_ok (hw.fits hs), hr], fun h => hg (Sink.room_push_growing h bs)⟩
  · exact ⟨_, _, runOn_bind_error (hw.full hs) f, fun h => absurd (Sink.fits_of_growing h bs) hs⟩

/-- What is written for each element, one after the other. -/
theorem Writes.total {f : α → Writer Nat} {bytes : α → Bytes} {xs : List α}
    (h : ∀ x ∈ xs, (f x).Writes (bytes x).length (bytes x)) (n : Nat) :
    (Writer.total f n xs).Writes (n + (xs.flatMap bytes).length) (xs.flatMap bytes) := by
  induction xs generalizing n with
  | nil => exact Writes.pure n
  | cons x xs ih =>
    obtain ⟨hx, hxs⟩ := List.forall_mem_cons.1 h
    rw [List.flatMap_cons, List.length_append, ← Nat.add_assoc]
    exact hx.bind (ih hxs _)

theorem total_append (f : α → Writer Nat) (n : Nat) (xs ys : List α) :
    total f n (xs ++ ys) = total f n xs >>= fun m => total f m ys := by
  induction xs generalizing n with
  | nil => rfl
  | cons x xs ih => simp [total, ih]

end Writer

namespace Reader

/-- `r` reads `a` from `bs`, whatever follows, and of `bs` it leaves `extra`. -/
def Reads (r : Reader α) (bs : Bytes) (a : α) (extra : Bytes) : Prop :=
  ∀ rest, r (bs ++ rest) = .ok (a, extra ++ rest)

theorem bind_apply (r : Reader α) (f : α → Reader β) (bs : Bytes) :
    (r >>= f) bs = r bs >>= fun (a, rest) => f a rest := rfl

theorem Reads.pure (a : α) : Reads (Pure.pure a : Reader α) [] a [] := fun _ => rfl

theorem Reads.bind {r : Reader α} {f : α → Reader β} {a : α} {b : β} {xs ys extra : Bytes}
    (hr : Reads r xs a []) (hf : Reads (f a) ys b extra) : Reads (r >>= f) (xs ++ ys) b extra := by
  intro rest
  rw [bind_apply, List.append_assoc, hr (ys ++ rest)]
  exact hf rest

theorem Reads.map {r : Reader α} {a : α} {bs extra : Bytes} (hr : Reads r bs a extra) (f : α → β) :
    Reads (f <$> r) bs (f a) extra := by
  intro rest
  show (f <$> r) (bs ++ rest) = _
  rw [map_eq_pure_bind, bind_apply, hr rest]
  rfl

theorem Reads.take (bs : Bytes) (short : Fault) : Reads (Reader.take bs.length short) bs bs [] :=
  fun _ => take_append rfl short

/-- The bytes of a number are read as what a word keeps of it. -/
theorem Reads.word {width : Nat} {toNat : α → Nat} {ofNat : Nat → α} (n : Nat) :
    Reads (Codec.word width toNat ofNat).decode (LittleEndian.encode width n)
      (ofNat (n % LittleEndian.range width)) [] := by
  have ht := Reads.take (LittleEndian.encode width n) .endOfInput
  rw [LittleEndian.length_encode] at ht
  have hp := ht.bind (f := fun bs => Pure.pure (ofNat (LittleEndian.decode bs))) (Reads.pure _)
  rwa [List.append_nil, LittleEndian.decode_encode_mod] at hp

theorem Reads.u32 {n : Nat} (h : n < 2 ^ 32) :
    Reads Codec.u32.decode (LittleEndian.encode 4 n) (UInt32.ofNat n) [] := by
  have hr : Reads Codec.u32.decode (LittleEndian.encode 4 n) (UInt32.ofNat (n % 2 ^ 32)) [] :=
    Reads.word n
  rwa [Nat.mod_eq_of_lt h] at hr

/-- Bytes with their number in front. -/
theorem Reads.payload {field bs : Bytes} {n : UInt32} (hr : Reads Codec.u32.decode field n [])
    (hn : n.toNat = bs.length) : Reads Codec.payload.decode (field ++ bs) bs [] := by
  refine hr.bind ?_
  show Reads (Codec.counted n.toNat) bs bs []
  rw [hn]
  exact Reads.take bs _

theorem bind_eq_ok {r : Reader α} {f : α → Reader β} {bs rest : Bytes} {b : β} :
    (r >>= f) bs = .ok (b, rest) ↔ ∃ a mid, r bs = .ok (a, mid) ∧ f a mid = .ok (b, rest) := by
  rw [bind_apply]
  cases hr : r bs with
  | error e =>
    constructor
    · intro hx
      cases hx
    · intro hx
      obtain ⟨a, mid, ⟨⟩, -⟩ := hx
  | ok found =>
    constructor
    · intro h
      exact ⟨found.1, found.2, rfl, h⟩
    · intro hx
      obtain ⟨a, mid, ⟨⟩, h⟩ := hx
      exact h

theorem pure_eq_ok {bs rest : Bytes} {a b : α} :
    (pure a : Reader α) bs = .ok (b, rest) ↔ b = a ∧ rest = bs := by
  constructor
  · intro hx
    cases hx
    exact ⟨rfl, rfl⟩
  · intro hx
    obtain ⟨rfl, rfl⟩ := hx
    rfl

theorem map_eq_ok {r : Reader α} {f : α → β} {bs rest : Bytes} {b : β} :
    (f <$> r) bs = .ok (b, rest) ↔ ∃ a, r bs = .ok (a, rest) ∧ b = f a := by
  rw [map_eq_pure_bind, bind_eq_ok]
  constructor
  · intro hx
    obtain ⟨a, mid, hr, hp⟩ := hx
    obtain ⟨rfl, rfl⟩ := pure_eq_ok.1 hp
    exact ⟨a, hr, rfl⟩
  · intro hx
    obtain ⟨a, hr, rfl⟩ := hx
    exact ⟨a, rest, hr, pure_eq_ok.2 ⟨rfl, rfl⟩⟩

theorem take_eq_ok {n : Nat} {short : Fault} {bs front rest : Bytes} :
    take n short bs = .ok (front, rest) ↔ bs = front ++ rest ∧ front.length = n := by
  rw [← splitBytes?_eq_some_iff, take]
  cases splitBytes? n bs with
  | none => simp
  | some found => simp

theorem word_eq_ok {width : Nat} {toNat : α → Nat} {ofNat : Nat → α} {bs rest : Bytes} {v : α} :
    (Codec.word width toNat ofNat).decode bs = .ok (v, rest) ↔
      ∃ front, bs = front ++ rest ∧ front.length = width ∧
        v = ofNat (LittleEndian.decode front) := by
  rw [Codec.word, bind_eq_ok]
  constructor
  · intro hx
    obtain ⟨front, mid, ht, hp⟩ := hx
    obtain ⟨rfl, rfl⟩ := pure_eq_ok.1 hp
    obtain ⟨hb, hn⟩ := take_eq_ok.1 ht
    exact ⟨front, hb, hn, rfl⟩
  · intro hx
    obtain ⟨front, hb, hn, rfl⟩ := hx
    exact ⟨front, rest, take_eq_ok.2 ⟨hb, hn⟩, pure_eq_ok.2 ⟨rfl, rfl⟩⟩

end Reader

/-- The law of a writer and a reader at a value. If `fits` then the value is
written in `size` bytes, from which `b` is read, and `surplus` of them are left;
otherwise it is refused. -/
structure Carries (w : Writer Nat) (r : Reader β) (fits : Prop) (size surplus : Nat) (b : β) :
    Prop where
  writes : fits → ∃ bs extra, w.Writes bs.length bs ∧ bs.length = size ∧
    r.Reads bs b extra ∧ extra.length = surplus
  refuses : ¬ fits → w.Refuses

namespace Carries

theorem map {w : Writer Nat} {r : Reader α} {fits : Prop} {size surplus : Nat} {a : α}
    (h : Carries w r fits size surplus a) (f : α → β) :
    Carries w (f <$> r) fits size surplus (f a) where
  writes hf := by
    obtain ⟨bs, extra, hw, hn, hr, he⟩ := h.writes hf
    exact ⟨bs, extra, hw, hn, hr.map f, he⟩
  refuses := h.refuses

theorem congr {w : Writer Nat} {r : Reader α} {fits fits' : Prop} {size size' surplus : Nat} {a : α}
    (h : Carries w r fits size surplus a) (hf : fits' ↔ fits) (hn : size' = size) :
    Carries w r fits' size' surplus a := by
  rw [hn]
  exact ⟨fun h' => h.writes (hf.1 h'), fun h' => h.refuses (fun h'' => h' (hf.2 h''))⟩

/-- Nothing is written, and nothing is read. -/
theorem pure (b : β) : Carries (Pure.pure 0) (Pure.pure b) True 0 0 b where
  writes _ := ⟨[], [], Writer.Writes.pure 0, rfl, Reader.Reads.pure b, rfl⟩
  refuses h := absurd trivial h

theorem word {width : Nat} {toNat : α → Nat} {ofNat : Nat → α} (v : α)
    (hv : ofNat (toNat v % LittleEndian.range width) = v) :
    Carries ((Codec.word width toNat ofNat).encode v) (Codec.word width toNat ofNat).decode
      True width 0 v where
  writes _ := by
    refine ⟨LittleEndian.encode width (toNat v), [], ?_, LittleEndian.length_encode .., ?_, rfl⟩
    · rw [LittleEndian.length_encode]
      exact (Writer.Writes.write _).bind_pure fun _ => width
    · conv => enter [3]; rw [← hv]
      exact Reader.Reads.word _
  refuses h := absurd trivial h

theorem u8 (v : UInt8) : Carries (Codec.u8.encode v) Codec.u8.decode True 1 0 v :=
  word v (by rw [Nat.mod_eq_of_lt (by exact v.toNat_lt), UInt8.ofNat_toNat])

theorem u16 (v : UInt16) : Carries (Codec.u16.encode v) Codec.u16.decode True 2 0 v :=
  word v (by rw [Nat.mod_eq_of_lt (by exact v.toNat_lt), UInt16.ofNat_toNat])

theorem u32 (v : UInt32) : Carries (Codec.u32.encode v) Codec.u32.decode True 4 0 v :=
  word v (by rw [Nat.mod_eq_of_lt (by exact v.toNat_lt), UInt32.ofNat_toNat])

theorem u64 (v : UInt64) : Carries (Codec.u64.encode v) Codec.u64.decode True 8 0 v :=
  word v (by rw [Nat.mod_eq_of_lt (by exact v.toNat_lt), UInt64.ofNat_toNat])

/-! ## Composition -/

theorem pair {c : Codec α} {d : Codec β} {x x' : α} {y y' : β} {f g : Prop} {m n surplus : Nat}
    (hx : Carries (c.encode x) c.decode f m 0 x')
    (hy : Carries (d.encode y) d.decode g n surplus y') :
    Carries ((c.pair d).encode (x, y)) (c.pair d).decode (f ∧ g) (m + n) surplus (x', y') where
  writes h := by
    obtain ⟨xs, extra, hw, rfl, hr, he⟩ := hx.writes h.1
    obtain ⟨ys, extra', hw', rfl, hr', he'⟩ := hy.writes h.2
    obtain rfl := List.eq_nil_of_length_eq_zero he
    refine ⟨xs ++ ys, extra', ?_, List.length_append, ?_, he'⟩
    · rw [List.length_append]
      exact hw.bind (hw'.bind_pure fun n => xs.length + n)
    · exact hr.bind (hr'.map fun y => (x', y))
  refuses h := by
    by_cases hf : f
    · obtain ⟨xs, extra, hw, -⟩ := hx.writes hf
      have hg := hy.refuses fun hg => h ⟨hf, hg⟩
      exact hw.bind_refuses (hg.bind _)
    · exact (hx.refuses hf).bind _

theorem imap {c : Codec α} {view : β → α} {build : α → β} {b b' : β} {a : α} {fits : Prop}
    {size surplus : Nat} (h : Carries (c.encode (view b)) c.decode fits size surplus a)
    (hb : build a = b') :
    Carries ((c.imap view build).encode b) (c.imap view build).decode fits size surplus b' :=
  hb ▸ h.map build

/-- Elements that are written one after the other, without their number, are
read back by their number and, unless one takes no bytes, until the bytes
end. -/
theorem total {c : Codec α} {fits : α → Prop} {size : α → Nat} {view : α → α} {xs : List α}
    (h : ∀ x ∈ xs, Carries (c.encode x) c.decode (fits x) (size x) 0 (view x))
    (hf : ∀ x ∈ xs, fits x) :
    ∃ bs : Bytes, bs.length = (xs.map size).sum ∧
      (∀ n, Writer.Writes (Writer.total c.encode n xs) (n + bs.length) bs) ∧
      (∀ acc, Reader.Reads (Reader.times c.decode xs.length acc) bs
        (acc.reverse ++ xs.map view) []) ∧
      ((∀ x ∈ xs, 0 < size x) → ∀ fuel acc, bs.length ≤ fuel →
        Reader.exhaust.go c.decode fuel acc bs = .ok (acc.reverse ++ xs.map view)) := by
  induction xs with
  | nil =>
    refine ⟨[], rfl, fun n => Writer.Writes.pure n, fun acc rest => ?_, fun _ fuel acc _ => ?_⟩
    · simp [Reader.times]
      rfl
    · simp [Reader.exhaust.go]
  | cons x xs ih =>
    obtain ⟨ys, extra, hw, hn, hr, he⟩ := (h x List.mem_cons_self).writes (hf x List.mem_cons_self)
    obtain rfl := List.eq_nil_of_length_eq_zero he
    obtain ⟨zs, hz, hw', hr', hx'⟩ := ih (fun x hx => h x (List.mem_cons_of_mem _ hx))
      (fun x hx => hf x (List.mem_cons_of_mem _ hx))
    refine ⟨ys ++ zs, ?_, fun n => ?_, fun acc => ?_, fun hpos fuel acc hfuel => ?_⟩
    · rw [List.length_append, List.map_cons, List.sum_cons, hn, hz]
    · rw [List.length_append, ← Nat.add_assoc]
      exact hw.bind (hw' _)
    · have htimes := hr.bind (f := fun x => Reader.times c.decode xs.length (x :: acc))
        (hr' (view x :: acc))
      rw [List.reverse_cons, List.append_assoc] at htimes
      exact htimes
    · have hy : 0 < ys.length := hn ▸ hpos x List.mem_cons_self
      rw [List.length_append] at hfuel
      obtain ⟨fuel, rfl⟩ : ∃ k, fuel = k + 1 := ⟨fuel - 1, by omega⟩
      obtain ⟨b, bs, rfl⟩ := List.exists_cons_of_length_pos hy
      have hread : c.decode (b :: (bs ++ zs)) = .ok (view x, zs) := hr zs
      have hrest := hx' (fun x hx => hpos x (List.mem_cons_of_mem _ hx)) fuel (view x :: acc)
        (by omega)
      rw [List.cons_append, Reader.exhaust.go, hread]
      simpa using hrest

theorem total_refuses {c : Codec α} {fits : α → Prop} {size : α → Nat} {view : α → α} {xs : List α}
    (h : ∀ x ∈ xs, Carries (c.encode x) c.decode (fits x) (size x) 0 (view x))
    (hf : ¬ ∀ x ∈ xs, fits x) (n : Nat) : Writer.Refuses (Writer.total c.encode n xs) := by
  induction xs generalizing n with
  | nil => exact absurd (fun _ hx => by cases hx) hf
  | cons x xs ih =>
    by_cases hx : fits x
    · obtain ⟨ys, extra, hw, -⟩ := (h x List.mem_cons_self).writes hx
      refine hw.bind_refuses (ih (fun x hx => h x (List.mem_cons_of_mem _ hx)) ?_ _)
      exact fun hxs => hf (List.forall_mem_cons.2 ⟨hx, hxs⟩)
    · exact ((h x List.mem_cons_self).refuses hx).bind _

/-- The number of elements that the count of a vector announces. -/
def vectorCount (xs : List α) : Nat := xs.length % 65536

/-- A vector is read up to its count; the bytes of the other elements are
left. -/
theorem vector {c : Codec α} {fits : α → Prop} {size : α → Nat} {view : α → α} {xs : List α}
    (h : ∀ x ∈ xs, Carries (c.encode x) c.decode (fits x) (size x) 0 (view x)) :
    Carries (c.vector.encode xs) c.vector.decode (∀ x ∈ xs, fits x) (2 + (xs.map size).sum)
      ((xs.drop (vectorCount xs)).map size).sum ((xs.take (vectorCount xs)).map view) where
  writes hf := by
    obtain ⟨field, extra, hwc, hnc, hrc, he⟩ := (u16 (UInt16.ofNat xs.length)).writes trivial
    obtain rfl := List.eq_nil_of_length_eq_zero he
    obtain ⟨ys, hy, hwy, hry, -⟩ := total
      (fun x (hx : x ∈ xs.take (vectorCount xs)) => h x (List.mem_of_mem_take hx))
      (fun x hx => hf x (List.mem_of_mem_take hx))
    obtain ⟨zs, hz, hwz, -⟩ := total
      (fun x (hx : x ∈ xs.drop (vectorCount xs)) => h x (List.mem_of_mem_drop hx))
      (fun x hx => hf x (List.mem_of_mem_drop hx))
    have hsum : (xs.map size).sum = ys.length + zs.length := by
      rw [hy, hz, ← List.sum_append, ← List.map_append, List.take_append_drop]
    have hcount : (xs.take (vectorCount xs)).length = (UInt16.ofNat xs.length).toNat := by
      rw [List.length_take, vectorCount, UInt16.toNat_ofNat']
      omega
    refine ⟨field ++ (ys ++ zs), zs, ?_, ?_, fun rest => ?_, hz⟩
    · have hall : ∀ n,
          Writer.Writes (Writer.total c.encode n xs) (n + (ys ++ zs).length) (ys ++ zs) := by
        intro n
        conv => enter [1]; rw [← List.take_append_drop (vectorCount xs) xs, Writer.total_append]
        rw [List.length_append, ← Nat.add_assoc]
        exact (hwy n).bind (hwz _)
      rw [List.length_append]
      exact hwc.bind (hall _)
    · rw [List.length_append, List.length_append, hnc, hsum]
    · have hread := hrc.bind (f := fun n : UInt16 => Reader.times c.decode n.toNat [])
        (hcount ▸ hry [])
      have := hread (zs ++ rest)
      rw [List.append_assoc] at this
      rw [List.append_assoc, List.append_assoc]
      exact this
  refuses hf := by
    obtain ⟨field, extra, hwc, -⟩ := (u16 (UInt16.ofNat xs.length)).writes trivial
    exact hwc.bind_refuses (total_refuses h hf _)

/-! ## Counted bytes -/

theorem payload {bs : Bytes} (h : bs.length < UInt32.size) :
    Carries (Codec.payload.encode bs) Codec.payload.decode True (4 + bs.length) 0 bs where
  writes _ := by
    obtain ⟨field, extra, hw, hn, hr, he⟩ := (u32 (UInt32.ofNat bs.length)).writes trivial
    obtain rfl := List.eq_nil_of_length_eq_zero he
    have hcount : (UInt32.ofNat bs.length).toNat = bs.length := UInt32.toNat_ofNat_of_lt' h
    refine ⟨field ++ bs, [], ?_, by rw [List.length_append, hn], hr.payload hcount, rfl⟩
    rw [List.length_append]
    exact hw.bind ((Writer.Writes.write bs).bind_pure fun _ => field.length + bs.length)
  refuses h := absurd trivial h

/-- The bytes of a text of this length take this many more on the wire. -/
theorem text (s : String) :
    Carries (Codec.text.encode s) Codec.text.decode (s.utf8ByteSize ≤ Codec.maxTextSize)
      (2 + s.utf8ByteSize) 0 s where
  writes hs := by
    obtain ⟨field, extra, hw, hn, hr, he⟩ := (u16 (UInt16.ofNat s.utf8ByteSize)).writes trivial
    obtain rfl := List.eq_nil_of_length_eq_zero he
    have hlt : s.utf8ByteSize < UInt16.size := Nat.lt_succ_of_le hs
    have hcount : (UInt16.ofNat s.utf8ByteSize).toNat = s.utf8ByteSize :=
      UInt16.toNat_ofNat_of_lt' hlt
    refine ⟨field ++ Text.toBytes s, [], ?_, ?_, ?_, rfl⟩
    · rw [List.length_append, Text.length_toBytes]
      simp only [Codec.text, gt_iff_lt, Nat.not_lt.2 hs, if_false]
      exact hw.bind ((Writer.Writes.write _).bind_pure fun _ => field.length + s.utf8ByteSize)
    · rw [List.length_append, Text.length_toBytes, hn]
    · refine hr.bind ?_
      rw [hcount, ← List.append_nil (Text.toBytes s)]
      have ht := Reader.Reads.take (Text.toBytes s) (.countOverrun s.utf8ByteSize)
      rw [Text.length_toBytes] at ht
      refine ht.bind ?_
      rw [Text.ofBytes?_toBytes]
      exact Reader.Reads.pure s
  refuses hs := by
    intro s'
    refine ⟨.textTooLong, s', ?_, fun _ => rfl⟩
    simp only [Codec.text, gt_iff_lt, Nat.not_le.1 hs, if_true]
    rfl

end Carries

end NineP
