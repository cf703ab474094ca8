import NineP.Proofs.Wire.Message
import NineP.Proofs.Wire.Steady
import NineP.Wire.Chain

/-!
# Values that delimit themselves

What a value is written as shows where it ends. Values that stand one after the
other are therefore read back one by one, with nothing between them and whatever
behind them.

* `Codec.Spells`: the law of a codec at a value that fits, with the bytes that
  the value is written as;
* `WireType.spells`, `WireType.steady`: the laws of every type on the wire, by
  induction on the type;
* `WireValue.self_delimiting`: a chain of values is read back from its bytes, and
  as far as it goes from the front of them.
-/

namespace NineP

namespace Codec

/-- The bytes that a value is written as. -/
def bytes (c : Codec α) (v : α) : Bytes := ((c.encode v).runOn .growing).2.written

/-- A value is written as its bytes, whose number is told, and is read back from
them, whatever follows. -/
structure Spells (c : Codec α) (v : α) : Prop where
  writes : (c.encode v).Writes (c.bytes v).length (c.bytes v)
  reads : c.decode.Reads (c.bytes v) v []

namespace Spells

variable {c : Codec α} {v : α}

theorem of_carries {fits : Prop} {size : Nat} (h : Carries (c.encode v) c.decode fits size 0 v)
    (hf : fits) : c.Spells v := by
  obtain ⟨bs, extra, hw, -, hr, he⟩ := h.writes hf
  obtain rfl := List.eq_nil_of_length_eq_zero he
  have hb : c.bytes v = bs := by
    rw [bytes, hw.fits (Sink.fits_of_growing rfl bs), Sink.written_push_growing]
  exact ⟨hb ▸ hw, hb ▸ hr⟩

theorem carries (h : c.Spells v) :
    Carries (c.encode v) c.decode True (c.bytes v).length 0 v where
  writes _ := ⟨_, [], h.writes, rfl, h.reads, rfl⟩
  refuses hf := absurd trivial hf

/-- The count of a vector shows where the vector ends, unless it wraps. -/
theorem vector {xs : List α} (h : ∀ x ∈ xs, c.Spells x) (hn : xs.length ≤ 65535) :
    c.vector.Spells xs := by
  have hcount : Carries.vectorCount xs = xs.length := Nat.mod_eq_of_lt (Nat.lt_succ_of_le hn)
  have hv := Carries.vector fun x hx => (h x hx).carries
  rw [hcount, List.drop_length, List.take_length, List.map_id'] at hv
  exact of_carries hv fun _ _ => trivial

end Spells

end Codec

/-! ## The types on the wire -/

namespace WireType

/-- Whether the counts in what a value is written as can hold what they count,
and its sets of attribute groups have no group without a meaning. -/
def Fits : (t : WireType) → t.Value → Prop
  | u8, _ | u16, _ | u32, _ | u64, _ | qid, _ | time, _ | stat, _ | fsStat, _ => True
  | text, s => s.utf8ByteSize ≤ Codec.maxTextSize
  | attr, a => a.valid.known = a.valid
  | dirEntry, e => e.name.utf8ByteSize ≤ Codec.maxTextSize
  | listing, entries =>
    (∀ e ∈ entries, e.name.utf8ByteSize ≤ Codec.maxTextSize) ∧
      (entries.map DirEntry.wireSize).sum < UInt32.size
  | payload, bs => bs.length < UInt32.size
  | message, m =>
    (∀ s ∈ m.body.texts, s.utf8ByteSize ≤ Codec.maxTextSize) ∧ m.body.CountsHold ∧
      m.body.PayloadFits ∧ m.known = m
  | vector element, xs => xs.length ≤ 65535 ∧ ∀ x ∈ xs, element.Fits x

theorem spells (t : WireType) : ∀ {v : t.Value}, t.Fits v → t.codec.Spells v := by
  induction t with
  | u8 => exact fun h => .of_carries (Carries.u8 _) h
  | u16 => exact fun h => .of_carries (Carries.u16 _) h
  | u32 => exact fun h => .of_carries (Carries.u32 _) h
  | u64 => exact fun h => .of_carries (Carries.u64 _) h
  | text => exact fun h => .of_carries (Carries.text _) h
  | qid => exact fun h => .of_carries (Carries.qid _) h
  | time => exact fun h => .of_carries (Carries.time _) h
  | stat => exact fun h => .of_carries (Carries.stat _) h
  | attr =>
    intro a h
    have hc := Carries.attr a
    rw [show a.valid.known = a.valid from h] at hc
    exact .of_carries hc trivial
  | fsStat => exact fun h => .of_carries (Carries.fsStat _) h
  | dirEntry => exact fun h => .of_carries (Carries.dirEntry _) h
  | listing => exact fun h => .of_carries (Carries.listing h.2) h.1
  | payload => exact fun h => .of_carries (Carries.payload h) trivial
  | message =>
    intro m h
    obtain ⟨htexts, hcounts, hpayload, hknown⟩ := h
    obtain ⟨hcounted, hsurplus⟩ := Body.counted_of_countsHold hcounts
    have hc := Carries.message hpayload
    rw [hcounted, hsurplus, show { m with body := m.body.known } = m from hknown] at hc
    exact .of_carries hc htexts
  | vector element ih => exact fun h => .vector (fun x hx => ih (h.2 x hx)) h.1

theorem steady (t : WireType) : t.codec.decode.Steady := by
  induction t with
  | u8 => exact .u8
  | u16 => exact .u16
  | u32 => exact .u32
  | u64 => exact .u64
  | text => exact .text
  | qid => exact .qid
  | time => exact .time
  | stat => exact .stat
  | attr => exact .attr
  | fsStat => exact .fsStat
  | dirEntry => exact .dirEntry
  | listing => exact .listing
  | payload => exact .payload
  | message => exact .message
  | vector element ih => exact .vector ih

end WireType

/-! ## Chains of values -/

namespace WireValue

/-- Whether a value fits the counts that it is written with. -/
def Fits (v : WireValue) : Prop := v.1.Fits v.2

/-- The bytes that a value is written as. -/
def bytes (v : WireValue) : Bytes := v.1.codec.bytes v.2

/-- The bytes that values are written as, one after the other. -/
def bytesAll (vs : List WireValue) : Bytes := vs.flatMap bytes

variable {v : WireValue} {vs : List WireValue}

theorem bytesAll_cons : bytesAll (v :: vs) = v.bytes ++ bytesAll vs := List.flatMap_cons

theorem bytesAll_append (ws : List WireValue) :
    bytesAll (vs ++ ws) = bytesAll vs ++ bytesAll ws := List.flatMap_append

theorem decode_bytes (h : v.Fits) : (decode v.1).Reads v.bytes v [] :=
  (v.1.spells h).reads.map _

/-- Of a value that has been cut nothing is read. -/
theorem decode_cut (h : v.Fits) {n : Nat} (hn : n < v.bytes.length) :
    ∃ fault, decode v.1 (v.bytes.take n) = .error fault ∧ fault.kind = .unexpectedEnd := by
  have hwhole := decode_bytes h []
  rw [List.append_nil, ← List.take_append_drop n v.bytes] at hwhole
  have hrest : v.bytes.drop n ≠ [] := by
    rw [ne_eq, List.drop_eq_nil_iff]
    omega
  exact (v.1.steady.map _).cut hwhole hrest

theorem total_writes (h : ∀ v ∈ vs, v.Fits) (n : Nat) :
    (Writer.total encode n vs).Writes (n + (bytesAll vs).length) (bytesAll vs) :=
  .total (fun v hv => (v.1.spells (h v hv)).writes) n

theorem decodeAll_append (h : ∀ v ∈ vs, v.Fits) (ts : List WireType) (rest : Bytes) :
    decodeAll (vs.map Sigma.fst ++ ts) (bytesAll vs ++ rest) =
      (vs ++ (decodeAll ts rest).1, (decodeAll ts rest).2) := by
  induction vs with
  | nil => rfl
  | cons v vs ih =>
    obtain ⟨hv, hvs⟩ := List.forall_mem_cons.1 h
    have hread : decode v.1 (v.bytes ++ (bytesAll vs ++ rest)) = .ok (v, bytesAll vs ++ rest) :=
      decode_bytes hv _
    rw [bytesAll_cons, List.append_assoc, List.map_cons, List.cons_append, decodeAll, hread]
    simp only [ih hvs, List.cons_append]

/-- A cut that takes some bytes away leaves some of the values whole and goes
through the next one. -/
theorem exists_cut {n : Nat} (hn : n < (bytesAll vs).length) :
    ∃ whole v rest, vs = whole ++ v :: rest ∧ ∃ m < v.bytes.length,
      n = (bytesAll whole).length + m ∧
      (bytesAll vs).take n = bytesAll whole ++ v.bytes.take m := by
  induction vs generalizing n with
  | nil => cases hn
  | cons v vs ih =>
    rw [bytesAll_cons] at hn ⊢
    by_cases hv : n < v.bytes.length
    · refine ⟨[], v, vs, rfl, n, hv, (Nat.zero_add n).symm, ?_⟩
      rw [List.take_append_of_le_length (Nat.le_of_lt hv)]
      rfl
    · rw [List.length_append] at hn
      obtain ⟨whole, v', rest, rfl, m, hm, hnm, htake⟩ := ih (n := n - v.bytes.length) (by omega)
      refine ⟨v :: whole, v', rest, rfl, m, hm, ?_, ?_⟩
      · rw [bytesAll_cons, List.length_append]
        omega
      · rw [List.take_append, List.take_of_length_le (by omega), htake, bytesAll_cons,
          List.append_assoc]

/-- Values that fit are written as their bytes, one after the other, and the
number of these bytes is told. With anything behind them they are all read back,
and nothing else is taken. Cut short, they are read back as long as they are
whole, and the next one is found to end too soon. -/
theorem self_delimiting (h : ∀ v ∈ vs, v.Fits) :
    (∃ s, (encodeAll vs).runOn .growing = (.ok (bytesAll vs).length, s) ∧ s.written = bytesAll vs) ∧
    (∀ rest, decodeAll (vs.map Sigma.fst) (bytesAll vs ++ rest) = (vs, .ok rest)) ∧
    ∀ n < (bytesAll vs).length, ∃ k < vs.length, ∃ fault,
      (bytesAll (vs.take k)).length ≤ n ∧ n < (bytesAll (vs.take (k + 1))).length ∧
      decodeAll (vs.map Sigma.fst) ((bytesAll vs).take n) = (vs.take k, .error fault) ∧
      fault.kind = .unexpectedEnd := by
  refine ⟨?_, fun rest => ?_, fun n hn => ?_⟩
  · have hw := (total_writes h 0).fits (Sink.fits_of_growing (s := .growing) rfl _)
    rw [Nat.zero_add] at hw
    exact ⟨_, hw, Sink.written_push_growing _⟩
  · have hread := decodeAll_append h [] rest
    rwa [List.append_nil, decodeAll, List.append_nil] at hread
  · obtain ⟨whole, v, rest, rfl, m, hm, rfl, htake⟩ := exists_cut hn
    obtain ⟨hwhole, hrest⟩ := List.forall_mem_append.1 h
    obtain ⟨hv, -⟩ := List.forall_mem_cons.1 hrest
    obtain ⟨fault, hfault, hkind⟩ := decode_cut hv hm
    refine ⟨whole.length, by simp, fault, ?_, ?_, ?_, hkind⟩
    · rw [List.take_left' rfl]
      omega
    · rw [List.append_cons, List.take_left' (by simp), bytesAll_append, List.length_append]
      simpa [bytesAll] using hm
    · rw [htake, List.map_append, decodeAll_append hwhole, List.take_left' rfl, List.map_cons,
        decodeAll, hfault, List.append_nil]

/-- A number, two names and an answer of a server; the bytes are cut in the second
name. -/
theorem self_delimiting_names :
    let vs : List WireValue := [⟨.u8, 7⟩, ⟨.vector .text, ["a", "b"]⟩, ⟨.message, ⟨1, .rclunk⟩⟩]
    (∀ v ∈ vs, v.Fits) ∧
      decodeAll [.u8, .vector .text, .message] (bytesAll vs ++ [5]) = (vs, .ok [5]) ∧
      ∃ fault, decodeAll [.u8, .vector .text, .message] ((bytesAll vs).take 8) =
        ([⟨.u8, 7⟩], .error fault) ∧ fault.kind = .unexpectedEnd := by
  intro vs
  have hvs : ∀ v ∈ vs, v.Fits := by
    have hnames : "a".utf8ByteSize ≤ Codec.maxTextSize ∧ "b".utf8ByteSize ≤ Codec.maxTextSize := by
      decide
    have hclunk : (Message.mk 1 .rclunk).known = ⟨1, .rclunk⟩ := rfl
    simpa [vs, Fits, WireType.Fits, Body.texts, Body.CountsHold, Body.PayloadFits]
      using ⟨hnames, hclunk⟩
  obtain ⟨-, hread, hcut⟩ := self_delimiting hvs
  refine ⟨hvs, hread [5], ?_⟩
  obtain ⟨k, hk, fault, hle, hlt, hfault, hkind⟩ := hcut 8 (by decide +kernel)
  obtain rfl : k = 1 := by
    match k, hk with
    | 0, _ => exact absurd hlt (by decide +kernel)
    | 1, _ => rfl
    | 2, _ => exact absurd hle (by decide +kernel)
  exact ⟨fault, hfault, hkind⟩

end WireValue

end NineP
