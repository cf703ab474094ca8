import Mathlib.Data.List.Forall2
import NineP.Proofs.Wire.Canonical
import NineP.Proofs.Wire.Steady

/-!
# Listings are read inside their count

A listing is read from as many bytes as its count says, and from no others: the reader of entries
is started again as long as some of these bytes are left. They are read as entries if they are the
records of these, one behind the other. A record that begins among them and ends behind them is not
read, whatever follows the listing.

* `DirEntry.Record`, `DirEntry.Records`: the bytes of an entry and of any number of them;
* `Reader.Accepts`: a reader reads exactly what has a shape, kept by each way to put readers
  together; `Reader.Accepts.dirEntry` for records;
* `Reader.Exhausts`: the loop that reads until no byte is left, without a bound on its rounds;
* `Reader.Piecewise.exhausts_exhaust`: it ends, and comes to what the bounded one comes to;
* `Reader.Piecewise.exhaust_eq_ok_iff`, `Reader.Piecewise.exhaust_cut`: what it makes of pieces of
  a shape, and of pieces of which the last is cut;
* `Codec.listing_within_count`: all that is read of a listing is decided by the bytes in its count.
-/

namespace NineP

/-! ## Records -/

/-- A word of so many bytes, and the number that it is. -/
def LittleEndian.IsWord (width n : Nat) (bs : Bytes) : Prop := bs.length = width ∧ decode bs = n

namespace DirEntry

/-- The bytes of a whole entry: the three parts of its identity, its cookie, its kind, and the
number of bytes of its name with the name in UTF-8 behind it. -/
def Record (bs : Bytes) (e : DirEntry) : Prop :=
  ∃ bits version path cookie typ count : Bytes,
    bs = [bits, version, path, cookie, typ, count, Text.toBytes e.name].flatten ∧
    LittleEndian.IsWord 1 e.qid.bits.toNat bits ∧
    LittleEndian.IsWord 4 e.qid.version.toNat version ∧
    LittleEndian.IsWord 8 e.qid.path.toNat path ∧
    LittleEndian.IsWord 8 e.cookie.toNat cookie ∧
    LittleEndian.IsWord 1 e.typ.toNat typ ∧
    LittleEndian.IsWord 2 (Text.toBytes e.name).length count

/-- The bytes of entries that stand one behind the other, with nothing between them. -/
def Records (bs : Bytes) (entries : List DirEntry) : Prop :=
  ∃ records : List Bytes, bs = records.flatten ∧ List.Forall₂ Record records entries

theorem Record.length_eq {bs : Bytes} {e : DirEntry} (h : Record bs e) :
    bs.length = e.wireSize := by
  obtain ⟨bits, version, path, cookie, typ, count, rfl, hbits, hversion, hpath, hcookie, htyp,
    hcount⟩ := h
  simp only [List.length_flatten, List.map_cons, List.map_nil, List.sum_cons, List.sum_nil,
    hbits.1, hversion.1, hpath.1, hcookie.1, htyp.1, hcount.1, Text.length_toBytes, wireSize,
    Text.wireSize]
  omega

/-- A record is never shorter than that of an entry without a name. -/
theorem Record.le_length {bs : Bytes} {e : DirEntry} (h : Record bs e) : 24 ≤ bs.length := by
  rw [h.length_eq, wireSize, Text.wireSize]
  omega

theorem Records.sum_wireSize {bs : Bytes} {entries : List DirEntry} (h : Records bs entries) :
    (entries.map wireSize).sum = bs.length := by
  obtain ⟨records, rfl, h⟩ := h
  induction h with
  | nil => rfl
  | cons he _ ih =>
    rw [List.map_cons, List.sum_cons, ih, List.flatten_cons, List.length_append, he.length_eq]

end DirEntry

namespace Reader

variable {α β : Type}

/-! ## What a reader accepts -/

/-- What is read is what the front of the input has the shape of, and all such fronts are
read. -/
def Accepts (r : Reader α) (shape : Bytes → α → Prop) : Prop :=
  ∀ bs a rest, r bs = .ok (a, rest) ↔ ∃ front, bs = front ++ rest ∧ shape front a

namespace Accepts

variable {r : Reader α} {c : Codec α} {d : Codec β} {shape shape' : Bytes → α → Prop}
  {shapeβ : Bytes → β → Prop}

theorem reads (h : r.Accepts shape) {bs : Bytes} {a : α} (ha : shape bs a) : r.Reads bs a [] :=
  fun _ => (h _ _ _).2 ⟨bs, rfl, ha⟩

theorem congr (h : r.Accepts shape) (hs : ∀ bs a, shape bs a ↔ shape' bs a) :
    r.Accepts shape' := by
  intro bs a rest
  rw [h]
  simp only [hs]

theorem pair (hc : c.decode.Accepts shape) (hd : d.decode.Accepts shapeβ) :
    (c.pair d).decode.Accepts fun bs v =>
      ∃ front back, bs = front ++ back ∧ shape front v.1 ∧ shapeβ back v.2 := by
  intro bs v rest
  constructor
  · intro h
    obtain ⟨x, mid, hx, h⟩ := bind_eq_ok.1 h
    obtain ⟨y, mid', hy, h⟩ := bind_eq_ok.1 h
    obtain ⟨rfl, rfl⟩ := pure_eq_ok.1 h
    obtain ⟨front, rfl, hfront⟩ := (hc _ _ _).1 hx
    obtain ⟨back, rfl, hback⟩ := (hd _ _ _).1 hy
    exact ⟨front ++ back, (List.append_assoc ..).symm, front, back, rfl, hfront, hback⟩
  · rintro ⟨_, rfl, front, back, rfl, hfront, hback⟩
    rw [List.append_assoc]
    refine bind_eq_ok.2 ⟨v.1, back ++ rest, hc.reads hfront _, ?_⟩
    exact bind_eq_ok.2 ⟨v.2, rest, hd.reads hback _, pure_eq_ok.2 ⟨rfl, rfl⟩⟩

theorem imap {view : β → α} {build : α → β} (hc : c.decode.Accepts shape)
    (hv : ∀ a, view (build a) = a) (hb : ∀ b, build (view b) = b) :
    (c.imap view build).decode.Accepts fun bs b => shape bs (view b) := by
  intro bs b rest
  constructor
  · intro h
    obtain ⟨a, ha, rfl⟩ := map_eq_ok.1 h
    simpa only [hv] using (hc _ _ _).1 ha
  · intro h
    exact map_eq_ok.2 ⟨view b, (hc _ _ _).2 h, (hb b).symm⟩

theorem word {width : Nat} {toNat : α → Nat} {ofNat : Nat → α}
    (hto : ∀ n < LittleEndian.range width, toNat (ofNat n) = n) (hof : ∀ v, ofNat (toNat v) = v) :
    (Codec.word width toNat ofNat).decode.Accepts fun bs v =>
      LittleEndian.IsWord width (toNat v) bs := by
  intro bs v rest
  rw [word_eq_ok]
  refine exists_congr fun front => and_congr_right fun _ => and_congr_right fun hlen => ?_
  have hlt : LittleEndian.decode front < LittleEndian.range width :=
    hlen ▸ LittleEndian.decode_lt front
  constructor
  · rintro rfl
    exact (hto _ hlt).symm
  · intro h
    rw [h, hof]

theorem u8 : Codec.u8.decode.Accepts fun bs v => LittleEndian.IsWord 1 v.toNat bs :=
  word (fun _ h => UInt8.toNat_ofNat_of_lt' h) fun _ => UInt8.ofNat_toNat

theorem u32 : Codec.u32.decode.Accepts fun bs v => LittleEndian.IsWord 4 v.toNat bs :=
  word (fun _ h => UInt32.toNat_ofNat_of_lt' h) fun _ => UInt32.ofNat_toNat

theorem u64 : Codec.u64.decode.Accepts fun bs v => LittleEndian.IsWord 8 v.toNat bs :=
  word (fun _ h => UInt64.toNat_ofNat_of_lt' h) fun _ => UInt64.ofNat_toNat

theorem text : Codec.text.decode.Accepts fun bs s => ∃ count,
    bs = count ++ Text.toBytes s ∧ LittleEndian.IsWord 2 (Text.toBytes s).length count := by
  intro bs s rest
  rw [Codec.text_eq_ok]
  constructor
  · rintro ⟨hs, rfl⟩
    exact ⟨_, rfl, _, rfl, LittleEndian.length_encode ..,
      LittleEndian.decode_encode (Nat.lt_succ_of_le hs)⟩
  · rintro ⟨_, rfl, count, rfl, hlen, hcount⟩
    have hlt := LittleEndian.decode_lt count
    rw [hcount, hlen] at hlt
    refine ⟨Nat.le_of_lt_succ hlt, ?_⟩
    rw [Text.counted, ← Text.length_toBytes, ← hcount, ← hlen, LittleEndian.encode_decode]

theorem qid : Codec.qid.decode.Accepts fun bs q =>
    ∃ bits version path, bs = bits ++ (version ++ path) ∧
      LittleEndian.IsWord 1 q.bits.toNat bits ∧ LittleEndian.IsWord 4 q.version.toNat version ∧
      LittleEndian.IsWord 8 q.path.toNat path := by
  refine ((u8.pair (u32.pair u64)).imap (fun _ => rfl) fun _ => rfl).congr fun bs q => ?_
  constructor
  · rintro ⟨bits, _, rfl, hbits, version, path, rfl, hversion, hpath⟩
    exact ⟨bits, version, path, rfl, hbits, hversion, hpath⟩
  · rintro ⟨bits, version, path, rfl, hbits, hversion, hpath⟩
    exact ⟨bits, _, rfl, hbits, version, path, rfl, hversion, hpath⟩

theorem dirEntry : Codec.dirEntry.decode.Accepts DirEntry.Record := by
  refine ((qid.pair (u64.pair (u8.pair text))).imap (fun _ => rfl) fun _ => rfl).congr
    fun bs e => ?_
  constructor
  · rintro ⟨_, _, rfl, ⟨bits, version, path, rfl, hbits, hversion, hpath⟩, cookie, _, rfl, hcookie,
      typ, _, rfl, htyp, count, rfl, hcount⟩
    refine ⟨bits, version, path, cookie, typ, count, ?_, hbits, hversion, hpath, hcookie, htyp,
      hcount⟩
    simp
  · rintro ⟨bits, version, path, cookie, typ, count, rfl, hbits, hversion, hpath, hcookie, htyp,
      hcount⟩
    refine ⟨_, _, ?_, ⟨bits, version, path, rfl, hbits, hversion, hpath⟩, cookie, _, rfl, hcookie,
      typ, _, rfl, htyp, count, rfl, hcount⟩
    simp

end Accepts

/-! ## Reading until the bytes end -/

/-- The loop that reads as long as there are bytes, with the values read so far in reverse: the
number of its rounds and what it comes to. -/
inductive Exhausts (r : Reader α) : Nat → List α → Bytes → Except Fault (List α) → Prop where
  | done (acc : List α) : Exhausts r 0 acc [] (.ok acc.reverse)
  | failed {acc : List α} {bs : Bytes} {e : Fault} : bs ≠ [] → r bs = .error e →
    Exhausts r 1 acc bs (.error e)
  | read {rounds : Nat} {acc : List α} {bs rest : Bytes} {a : α}
    {result : Except Fault (List α)} : bs ≠ [] → r bs = .ok (a, rest) →
    Exhausts r rounds (a :: acc) rest result → Exhausts r (rounds + 1) acc bs result

/-- The loop comes to one thing only. -/
theorem Exhausts.unique {r : Reader α} {rounds rounds' : Nat} {acc : List α} {bs : Bytes}
    {result result' : Except Fault (List α)} (h : r.Exhausts rounds acc bs result)
    (h' : r.Exhausts rounds' acc bs result') : result = result' := by
  -- Whether there are bytes and what is read of them decides how either goes on.
  induction h generalizing rounds' with
  | done acc =>
    cases h' with
    | done => rfl
    | failed hne => exact absurd rfl hne
    | read hne => exact absurd rfl hne
  | failed hne hread =>
    cases h' with
    | done => exact absurd rfl hne
    | failed _ hread' =>
      cases hread.symm.trans hread'
      rfl
    | read _ hread' => cases hread.symm.trans hread'
  | read hne hread _ ih =>
    cases h' with
    | done => exact absurd rfl hne
    | failed _ hread' => cases hread.symm.trans hread'
    | read _ hread' hrest =>
      cases hread.symm.trans hread'
      exact ih hrest

/-- Exactly the pieces of a shape are read, each of at least so many bytes. -/
structure Piecewise (r : Reader α) (shape : Bytes → α → Prop) (width : Nat) : Prop where
  accepts : r.Accepts shape
  width_le {bs : Bytes} {a : α} : shape bs a → width ≤ bs.length
  pos : 0 < width

namespace Piecewise

variable {r : Reader α} {shape : Bytes → α → Prop} {width : Nat} (h : r.Piecewise shape width)
  {acc : List α} {bs rest : Bytes} {result : Except Fault (List α)} {pieces : List Bytes}
  {xs : List α} {rounds : Nat}

include h

/-- Pieces are read one after the other, and then what stands behind them. -/
theorem behind (hpieces : List.Forall₂ shape pieces xs)
    (hrest : r.Exhausts rounds (xs.reverse ++ acc) rest result) :
    r.Exhausts (rounds + xs.length) acc (pieces.flatten ++ rest) result := by
  induction hpieces generalizing acc with
  | nil => exact hrest
  | @cons piece x pieces xs hx _ ih =>
    have hne : piece ≠ [] := List.ne_nil_of_length_pos (Nat.lt_of_lt_of_le h.pos (h.width_le hx))
    rw [List.reverse_cons, List.append_assoc] at hrest
    rw [List.flatten_cons, List.append_assoc]
    exact .read (List.append_ne_nil_of_left_ne_nil hne _) (h.accepts.reads hx _) (ih hrest)

/-- Bytes that are read to their end are pieces. -/
theorem exists_pieces (hx : r.Exhausts rounds acc bs (.ok xs)) :
    ∃ pieces ys, xs = acc.reverse ++ ys ∧ bs = pieces.flatten ∧ List.Forall₂ shape pieces ys := by
  generalize hresult : Except.ok xs = result at hx
  induction hx with
  | done acc =>
    obtain rfl := Except.ok.inj hresult
    exact ⟨[], [], (List.append_nil _).symm, rfl, .nil⟩
  | failed => cases hresult
  | read _ hread _ ih =>
    obtain ⟨piece, rfl, hpiece⟩ := (h.accepts _ _ _).1 hread
    obtain ⟨pieces, ys, rfl, rfl, hpieces⟩ := ih hresult
    exact ⟨piece :: pieces, _ :: ys, by simp, rfl, .cons hpiece hpieces⟩

/-- Each round takes a piece, so that the number of bytes bounds the rounds. -/
theorem exhausts_go {fuel : Nat} (hfuel : bs.length ≤ fuel) :
    ∃ rounds, width * rounds < bs.length + width ∧
      r.Exhausts rounds acc bs (exhaust.go r fuel acc bs) := by
  have hpos := h.pos
  induction fuel generalizing acc bs with
  | zero =>
    obtain rfl := List.eq_nil_of_length_eq_zero (Nat.le_zero.1 hfuel)
    exact ⟨0, by omega, .done acc⟩
  | succ fuel ih =>
    cases bs with
    | nil => exact ⟨0, by omega, .done acc⟩
    | cons b bs =>
      rw [exhaust.go]
      cases hread : r (b :: bs) with
      | error e => exact ⟨1, by simp, .failed (List.cons_ne_nil b bs) hread⟩
      | ok found =>
        obtain ⟨a, rest⟩ := found
        obtain ⟨front, hfront, ha⟩ := (h.accepts _ _ _).1 hread
        have hlen : (b :: bs).length = front.length + rest.length := by
          rw [hfront, List.length_append]
        have hleast := h.width_le ha
        -- A round that reads leaves less than it found, so that the fuel lasts.
        have hfewer : rest.length ≤ fuel := by omega
        obtain ⟨rounds, hrounds, hrest⟩ : ∃ rounds, width * rounds < rest.length + width ∧
            r.Exhausts rounds (a :: acc) rest (exhaust.go r fuel (a :: acc) rest) := ih hfewer
        refine ⟨rounds + 1, ?_, .read (List.cons_ne_nil b bs) hread hrest⟩
        rw [Nat.mul_succ]
        omega

theorem exhausts_exhaust (bs : Bytes) :
    ∃ rounds, width * rounds < bs.length + width ∧ r.Exhausts rounds [] bs (r.exhaust bs) :=
  h.exhausts_go (Nat.le_refl _)

/-- The loop that is bounded comes to what the one without a bound comes to. -/
theorem exhaust_eq (hx : r.Exhausts rounds [] bs result) : r.exhaust bs = result := by
  obtain ⟨_, -, hexhaust⟩ := h.exhausts_exhaust bs
  exact hexhaust.unique hx

theorem exhaust_eq_ok_iff :
    r.exhaust bs = .ok xs ↔ ∃ pieces, bs = pieces.flatten ∧ List.Forall₂ shape pieces xs := by
  constructor
  · intro hread
    obtain ⟨_, -, hexhaust⟩ := h.exhausts_exhaust bs
    rw [hread] at hexhaust
    obtain ⟨pieces, ys, rfl, hbs, hpieces⟩ := h.exists_pieces hexhaust
    exact ⟨pieces, hbs, hpieces⟩
  · rintro ⟨pieces, rfl, hpieces⟩
    have hall := h.behind hpieces (.done (xs.reverse ++ []))
    rw [List.append_nil, List.append_nil, List.reverse_reverse] at hall
    exact h.exhaust_eq hall

/-- If the last piece is cut, then the bytes end too soon, whatever would complete it. -/
theorem exhaust_cut (hsteady : r.Steady) (hpieces : List.Forall₂ shape pieces xs)
    {front back : Bytes} {a : α} (hpiece : shape (front ++ back) a) (hfront : front ≠ [])
    (hback : back ≠ []) :
    ∃ fault, r.exhaust (pieces.flatten ++ front) = .error fault ∧
      fault.kind = .unexpectedEnd := by
  have hwhole := h.accepts.reads hpiece []
  rw [List.append_nil] at hwhole
  obtain ⟨fault, hfault, hkind⟩ := hsteady.cut hwhole hback
  exact ⟨fault, h.exhaust_eq (h.behind hpieces (.failed hfront hfault)), hkind⟩

end Piecewise

end Reader

/-! ## Listings -/

theorem Reader.Piecewise.dirEntry : Codec.dirEntry.decode.Piecewise DirEntry.Record 24 where
  accepts := .dirEntry
  width_le := DirEntry.Record.le_length
  pos := by decide

namespace Codec

/-- Bytes with their number in front are read as a listing in rounds of which each but the last
takes a record, so that reading ends. What it comes to depends on these bytes alone, and all that
stands behind them is left. They are read as entries exactly if they are the records of these
entries, and the size of the listing is then their number. If they end in a part of a record, then
they end too soon, even if the rest of the record stands behind them. -/
theorem listing_within_count (p : Bytes) (hp : p.length < 2 ^ 32) :
    ∃ outcome : Except Fault (List DirEntry),
      (∃ rounds, 24 * rounds < p.length + 24 ∧ dirEntry.decode.Exhausts rounds [] p outcome) ∧
      (∀ rest, listing.decode (LittleEndian.encode 4 p.length ++ p ++ rest) =
        outcome.map fun entries => (entries, rest)) ∧
      (∀ entries, outcome = .ok entries ↔ DirEntry.Records p entries) ∧
      (∀ entries, outcome = .ok entries → (DirEntry.listingSize entries).toNat = p.length) ∧
      ∀ whole front back entries e, p = whole ++ front → DirEntry.Records whole entries →
        DirEntry.Record (front ++ back) e → front ≠ [] → back ≠ [] →
        ∃ fault, outcome = .error fault ∧ fault.kind = .unexpectedEnd := by
  have hpieces := Reader.Piecewise.dirEntry
  refine ⟨dirEntry.decode.exhaust p, hpieces.exhausts_exhaust p, fun rest => ?_,
    fun entries => hpieces.exhaust_eq_ok_iff, fun entries hread => ?_, ?_⟩
  · have hcount : (UInt32.ofNat p.length).toNat = p.length := UInt32.toNat_ofNat_of_lt' hp
    exact listing_of_payload ((Reader.Reads.u32 hp).payload hcount rest)
  · have hsum := DirEntry.Records.sum_wireSize (hpieces.exhaust_eq_ok_iff.1 hread)
    rw [DirEntry.toNat_listingSize (hsum ▸ hp), hsum]
  · rintro _ front back entries e rfl ⟨records, rfl, hrecords⟩ hrecord hfront hback
    exact hpieces.exhaust_cut .dirEntry hrecords hrecord hfront hback

/-- A directory whose name is one byte long. -/
def shortNamed : DirEntry where
  qid := { bits := 128, version := 1, path := 2 }
  cookie := 1
  typ := 4
  name := "a"

/-- The record of `shortNamed`. -/
def shortRecord : Bytes :=
  [128, 1, 0, 0, 0, 2, 0, 0, 0, 0, 0, 0, 0, 1, 0, 0, 0, 0, 0, 0, 0, 4, 1, 0, 97]

/-- A file whose name is one character of two bytes. -/
def accentNamed : DirEntry where
  qid := { path := 3 }
  cookie := 2
  typ := 8
  name := "é"

/-- The record of `accentNamed` without its last byte. -/
def cutRecord : Bytes :=
  [0, 0, 0, 0, 0, 3, 0, 0, 0, 0, 0, 0, 0, 2, 0, 0, 0, 0, 0, 0, 0, 8, 2, 0, 195]

theorem record_shortNamed : DirEntry.Record shortRecord shortNamed :=
  ⟨[128], [1, 0, 0, 0], [2, 0, 0, 0, 0, 0, 0, 0], [1, 0, 0, 0, 0, 0, 0, 0], [4], [1, 0], by rfl,
    ⟨rfl, rfl⟩, ⟨rfl, rfl⟩, ⟨rfl, rfl⟩, ⟨rfl, rfl⟩, ⟨rfl, rfl⟩, rfl, by rfl⟩

theorem record_accentNamed : DirEntry.Record (cutRecord ++ [169]) accentNamed :=
  ⟨[0], [0, 0, 0, 0], [3, 0, 0, 0, 0, 0, 0, 0], [2, 0, 0, 0, 0, 0, 0, 0], [8], [2, 0], by rfl,
    ⟨rfl, rfl⟩, ⟨rfl, rfl⟩, ⟨rfl, rfl⟩, ⟨rfl, rfl⟩, ⟨rfl, rfl⟩, rfl, by rfl⟩

/-- Two entries are read, and the byte behind them is left. If the number of bytes is one less, then
the second entry is not read, although all of it is there. -/
theorem listing_within_count_two_names :
    51 < 2 ^ 32 ∧ 50 < 2 ^ 32 ∧
      listing.decode (LittleEndian.encode 4 51 ++ (shortRecord ++ (cutRecord ++ [169])) ++ [7]) =
        .ok ([shortNamed, accentNamed], [7]) ∧
      (DirEntry.listingSize [shortNamed, accentNamed]).toNat = 51 ∧
      ∃ fault, listing.decode (LittleEndian.encode 4 50 ++ (shortRecord ++ cutRecord) ++ [169]) =
        .error fault ∧ fault.kind = .unexpectedEnd := by
  have hfirst : DirEntry.Records shortRecord [shortNamed] :=
    ⟨[shortRecord], rfl, .cons record_shortNamed .nil⟩
  have hboth : DirEntry.Records (shortRecord ++ (cutRecord ++ [169])) [shortNamed, accentNamed] :=
    ⟨[shortRecord, cutRecord ++ [169]], rfl,
      .cons record_shortNamed (.cons record_accentNamed .nil)⟩
  obtain ⟨whole, -, hwhole, hiff, hsize, -⟩ :=
    listing_within_count (shortRecord ++ (cutRecord ++ [169])) (by decide)
  have hok := (hiff [shortNamed, accentNamed]).2 hboth
  subst hok
  obtain ⟨short, -, hshort, -, -, hcut⟩ :=
    listing_within_count (shortRecord ++ cutRecord) (by decide)
  obtain ⟨fault, rfl, hkind⟩ := hcut shortRecord cutRecord [169] [shortNamed] accentNamed rfl
    hfirst record_accentNamed (by decide) (by decide)
  exact ⟨by decide, by decide, hwhole [7], hsize _ rfl, fault, hshort [169], hkind⟩

end Codec

end NineP
