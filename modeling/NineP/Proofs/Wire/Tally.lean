import NineP.Proofs.Wire.Tells

/-!
# A tally that goes on after failures

Values are written one after the other into a buffer that grows, and the writing goes on after
a failure. The tally counts the bytes of the values that were written whole; the buffer has
what was written of the others, too. So the two are in step as long as nothing was written of
the values that failed, which holds of texts alone:

* `WireValue.runOn_encode`: what the writing of a value comes to;
* `WireValue.tally_go`: what a tally tells and what the buffer has after it;
* `WireValue.tally_short`: the tally is behind the buffer by the bytes of the values that
  failed;
* `WireValue.not_tally_in_step`: a list of two names, of which the second is too long.
-/

namespace NineP

namespace WireValue

/-- What the writing of a value into a buffer that grows comes to. -/
def outcome (v : WireValue) : Except Fault Nat :=
  if v.overlong then .error .textTooLong else .ok v.bytes.length

/-- The number of bytes that a value adds to a tally. -/
def counted (v : WireValue) : Nat := if v.overlong then 0 else v.bytes.length

/-- The values that are not written whole. -/
def broken (vs : List WireValue) : List WireValue := vs.filter overlong

theorem runOn_encode (v : WireValue) {s : Sink} (hs : s.room = none) :
    v.encode.runOn s = (v.outcome, s.push v.bytes) := by
  have hfits := Sink.fits_of_growing hs v.bytes
  cases h : v.overlong with
  | false => rw [(writes_bytes h).fits hfits, outcome, if_neg (by simp [h])]
  | true => rw [(breaks_bytes h).fits hfits, outcome, if_pos h]

/-- One step of a tally. -/
theorem tally_go_cons (total : Nat) {s : Sink} (hs : s.room = none) (v : WireValue)
    (vs : List WireValue) : tally.go total s (v :: vs) =
      ((v.outcome, total + v.counted) :: (tally.go (total + v.counted) (s.push v.bytes) vs).1,
        (tally.go (total + v.counted) (s.push v.bytes) vs).2) := by
  rw [tally.go, runOn_encode v hs, outcome, counted]
  cases v.overlong with
  | false => rfl
  | true => rfl

/-- After each value there is what its writing came to, and what all values so far add to the
tally. The buffer has the bytes of all of them, whole or not. -/
theorem tally_go {vs : List WireValue} (total : Nat) {s : Sink} (hs : s.room = none) :
    (tally.go total s vs).2 = s.push (bytesAll vs) ∧
    ∀ k, (tally.go total s vs).1[k]? =
      vs[k]?.map fun v => (v.outcome, total + ((vs.take (k + 1)).map counted).sum) := by
  induction vs generalizing total s with
  | nil => exact ⟨(s.push_nil).symm, fun k => rfl⟩
  | cons v vs ih =>
    obtain ⟨hlast, htold⟩ := ih (total + v.counted) (Sink.room_push_growing hs v.bytes)
    rw [tally_go_cons total hs]
    refine ⟨?_, fun k => ?_⟩
    · rw [hlast, Sink.push_push, bytesAll_cons]
    · cases k with
      | zero => simp
      | succ k =>
        rw [List.getElem?_cons_succ, htold, List.getElem?_cons_succ]
        simp [Nat.add_assoc]

/-- What a tally tells up to a value is what it tells of the values up to there. -/
theorem tally_take (vs : List WireValue) {s : Sink} (hs : s.room = none) (k : Nat) :
    (tally (vs.take k) s).1 = (tally vs s).1.take k := by
  refine List.ext_getElem? fun i => ?_
  rw [tally, tally, (tally_go 0 hs).2, List.getElem?_take, List.getElem?_take, (tally_go 0 hs).2]
  by_cases hi : i < k
  · rw [if_pos hi, if_pos hi, List.take_take, Nat.min_eq_left hi]
  · rw [if_neg hi, if_neg hi]
    rfl

/-- The bytes of all values are those that are counted and those of the values that are not
written whole. -/
theorem length_bytesAll (vs : List WireValue) :
    (bytesAll vs).length = (vs.map counted).sum + (bytesAll (broken vs)).length := by
  induction vs with
  | nil => rfl
  | cons v vs ih =>
    rw [bytesAll_cons, List.length_append, ih, List.map_cons, List.sum_cons, counted, broken,
      broken, List.filter_cons]
    cases v.overlong with
    | false => simp [Nat.add_assoc]
    | true =>
      simp only [if_true, bytesAll_cons, List.length_append]
      omega

/-- All bytes are counted exactly if nothing was written of the values that failed, which
holds of texts alone. -/
theorem sum_counted_eq_iff {vs : List WireValue} :
    (vs.map counted).sum = (bytesAll vs).length ↔ ∀ v ∈ vs, v.overlong = true → v.1 = .text := by
  have hbroken : bytesAll (broken vs) = [] ↔ ∀ v ∈ vs, v.overlong = true → v.1 = .text := by
    simp only [bytesAll, broken, List.flatMap_eq_nil_iff, List.mem_filter, and_imp]
    exact forall₃_congr fun v _ h => bytes_eq_nil_iff h
  have hlength := length_bytesAll vs
  rw [← hbroken, ← List.length_eq_zero_iff]
  omega

/-- After each value of a row the tally tells what the writing of this value came to and the
number of bytes of the values that were written whole. The buffer has the bytes of all values
up to there; so the tally is short by what was written of the values that failed, and it is
the number of bytes in the buffer exactly if each of these was a text alone. -/
theorem tally_short (vs : List WireValue) {s : Sink} (hs : s.room = none) {k : Nat}
    (hk : k < vs.length) :
    ∃ total, (tally vs s).1[k]? = some (vs[k].outcome, total) ∧
      (tally (vs.take (k + 1)) s).1 = (tally vs s).1.take (k + 1) ∧
      (tally (vs.take (k + 1)) s).2.written = s.written ++ bytesAll (vs.take (k + 1)) ∧
      (bytesAll (vs.take (k + 1))).length =
        total + (bytesAll (broken (vs.take (k + 1)))).length ∧
      (total = (bytesAll (vs.take (k + 1))).length ↔
        ∀ v ∈ vs.take (k + 1), v.overlong = true → v.1 = .text) := by
  refine ⟨((vs.take (k + 1)).map counted).sum, ?_, tally_take vs hs (k + 1), ?_,
    length_bytesAll _, sum_counted_eq_iff⟩
  · rw [tally, (tally_go 0 hs).2, List.getElem?_eq_getElem hk, Option.map_some, Nat.zero_add]
  · rw [tally, (tally_go 0 hs).1, Sink.written_push, Sink.front_growing hs]

/-- A row of two names. -/
def twoNames (name other : String) : WireValue := ⟨.vector .text, [name, other]⟩

theorem overlong_twoNames {other : String} (h : Codec.maxTextSize < other.utf8ByteSize)
    (name : String) : (twoNames name other).overlong = true := by
  simp [twoNames, overlong, WireType.texts, h]

theorem bytes_twoNames {other : String} (h : Codec.maxTextSize < other.utf8ByteSize) :
    (twoNames "a" other).bytes = [2, 0, 1, 0, 97] := by
  have hrun : (Codec.text.vector.encode ["a", other]).runOn .growing =
      (.error .textTooLong, Sink.growing.push [2, 0, 1, 0, 97]) := by
    simp only [Codec.vector, Writer.total, Writer.text_encode_of_lt h, List.length_cons,
      List.length_nil]
    rfl
  exact bytes_eq hrun

/-- A name with a letter more than a text can have. -/
def longName : String := String.ofList (List.replicate 65536 'a')

theorem utf8ByteSize_longName : longName.utf8ByteSize = 65536 * 'a'.utf8Size := by
  unfold longName
  exact Text.utf8ByteSize_replicate 65536 'a'

theorem maxTextSize_lt_longName : Codec.maxTextSize < longName.utf8ByteSize := by
  have hsize : longName.utf8ByteSize = 65536 := utf8ByteSize_longName
  rw [hsize]
  exact Nat.lt_succ_self 65535

/-- Behind two names of which the second is too long, a byte is the first that is counted and
the sixth in the buffer. -/
theorem tally_short_by_five :
    Sink.growing.room = none ∧ 1 < [twoNames "a" longName, ⟨.u8, 1⟩].length ∧
      (tally [twoNames "a" longName, ⟨.u8, 1⟩] .growing).1[1]? = some (.ok 1, 1) ∧
      (tally [twoNames "a" longName, ⟨.u8, 1⟩] .growing).2.written = [2, 0, 1, 0, 97, 1] := by
  -- Of the long name only its size is used; nothing may unfold it.
  have hshort (names : WireValue) (hlong : names.overlong = true)
      (hbytes : names.bytes = [2, 0, 1, 0, 97]) (hk : 1 < [names, ⟨.u8, 1⟩].length) :
      (tally [names, ⟨.u8, 1⟩] .growing).1[1]? = some (.ok 1, 1) ∧
        (tally [names, ⟨.u8, 1⟩] .growing).2.written = [2, 0, 1, 0, 97, 1] := by
    obtain ⟨total, htold, -, hwritten, hlength, -⟩ :=
      tally_short [names, ⟨.u8, 1⟩] (s := .growing) rfl hk
    have hall : bytesAll [names, ⟨.u8, 1⟩] = [2, 0, 1, 0, 97, 1] := by
      rw [bytesAll_cons, hbytes]
      rfl
    have hbroken : broken [names, ⟨.u8, 1⟩] = [names] := by
      rw [broken, List.filter_cons, if_pos hlong]
      rfl
    change (bytesAll [names, ⟨.u8, 1⟩]).length =
      total + (bytesAll (broken [names, ⟨.u8, 1⟩])).length at hlength
    rw [hall, hbroken, bytesAll_cons, hbytes] at hlength
    obtain rfl : 1 = total := Nat.add_right_cancel (m := 5) hlength
    exact ⟨htold, hwritten.trans hall⟩
  have hk : 1 < [twoNames "a" longName, ⟨.u8, 1⟩].length := Nat.one_lt_two
  exact ⟨rfl, hk, hshort _ (overlong_twoNames maxTextSize_lt_longName "a")
    (bytes_twoNames maxTextSize_lt_longName) hk⟩

/-- So a tally is not always the number of bytes in the buffer. -/
theorem not_tally_in_step :
    ¬ ∀ (vs : List WireValue) (k : Nat) (result : Except Fault Nat) (total : Nat),
      (tally vs .growing).1[k]? = some (result, total) →
        total = (tally (vs.take (k + 1)) .growing).2.written.length := by
  intro h
  have hlong := overlong_twoNames maxTextSize_lt_longName "a"
  have htext : (twoNames "a" longName).1 ≠ .text := fun ht => nomatch ht
  generalize twoNames "a" longName = names at *
  have hlast := h [names] 0 names.outcome _ ((tally_go 0 (s := .growing) rfl).2 0)
  rw [tally, (tally_go 0 rfl).1, Sink.written_push_growing, Nat.zero_add] at hlast
  exact htext (sum_counted_eq_iff.1 hlast names (List.mem_singleton_self _) hlong)

end WireValue

end NineP
