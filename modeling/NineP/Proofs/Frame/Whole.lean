import NineP.Proofs.Frame.Chunks

/-!
# Whole frames off any stream

A splitter for whole frames takes the size of a frame as it finds it, however small. It
loses nothing of the stream and adds nothing to it, but a size that does not count its
own four bytes is taken apart: the frame is then only the beginning of the size. A size
of zero takes nothing off the stream, so that it is found there again and again.

* `Splitter.next_of_whole`: all that a step may do with the bytes that are there;
* `Splitter.frames_of_whole`, `Splitter.splits_of_whole`: the frames that are given out,
  one after the other, are the beginning of the stream;
* `Splitter.ends_iff`: the frames come to an end unless one of them is empty;
* `Splitter.splits_whole`: what is given out of any stream, in whatever chunks.
-/

namespace NineP.Splitter

/-- A frame begins with a size, which says how long the frame is. -/
def SelfSized (frame : Bytes) : Prop :=
  Frame.sizeWidth ≤ frame.length ∧
    LittleEndian.decode (frame.take Frame.sizeWidth) = frame.length

/-- A frame is a part of a size, which says how long the part is. -/
def Undersized (frame : Bytes) : Prop :=
  frame.length < Frame.sizeWidth ∧ ∃ field : Bytes, field.length = Frame.sizeWidth ∧
    frame <+: field ∧ LittleEndian.decode field = frame.length

/-- The frames that are there are given out in finitely many rounds. -/
def Ends (s : Splitter) : Prop := ∃ count, ∀ more, s.frames (count + more) = s.frames count

/-- The frames that are there after each chunk of a stream are given out in finitely many
rounds, until there is a failure. -/
def Settles : Splitter → List Bytes → Prop
  | _, [] => True
  | s, chunk :: chunks => (s.feed chunk).Ends ∧
    ∀ given s', (s.feed chunk).drain = (given, none, s') → Settles s' chunks

/-! ## One frame -/

section

variable {max : Nat} {s : Splitter} {bytes frame rest : Bytes}

/-- What a step may do with the bytes that are there: refuse a size that is too big, wait
for more, or give out as many bytes as the size says. -/
inductive Next (max : Nat) (bytes : Bytes) : Except Fault (Option Bytes × Splitter) → Prop where
  | refused : Next max bytes (.error .frameTooBig)
  | waiting {s' : Splitter} : Holds .whole max s' bytes → Next max bytes (.ok (none, s'))
  | given {frame rest : Bytes} : bytes = frame ++ rest → Frame.sizeWidth ≤ bytes.length →
    LittleEndian.decode (bytes.take Frame.sizeWidth) = frame.length →
    Next max bytes (.ok (some frame, { style := .whole, max, buffer := rest }))

theorem next_of_cut {awaiting : Option Nat} {n : Nat} (hw : Frame.sizeWidth ≤ bytes.length)
    (hn : LittleEndian.decode (bytes.take Frame.sizeWidth) = n) :
    Next max bytes (.ok (cut { style := .whole, max, awaiting, buffer := bytes } n)) := by
  unfold cut
  cases hsplit : splitBytes? n bytes with
  | none =>
    have hless : bytes.length < n := splitBytes?_eq_none_iff.1 hsplit
    exact .waiting (.waiting hw hn (Nat.zero_lt_of_lt hless))
  | some found =>
    obtain ⟨frame, rest⟩ := found
    obtain ⟨hbytes, hlen⟩ := splitBytes?_eq_some_iff.1 hsplit
    exact .given hbytes hw (hn.trans hlen.symm)

theorem next_of_whole (h : Holds .whole max s bytes) : Next max bytes s.next := by
  cases h with
  | fresh =>
    simp only [next]
    cases hsplit : splitBytes? Frame.sizeWidth bytes with
    | none => exact .waiting (.fresh bytes)
    | some found =>
      obtain ⟨field, rest⟩ := found
      obtain ⟨hbytes, hlen⟩ := splitBytes?_eq_some_iff.1 hsplit
      have htake : bytes.take Frame.sizeWidth = field := by simp [hbytes, ← hlen]
      have hw : Frame.sizeWidth ≤ bytes.length := by simp [hbytes, ← hlen]
      by_cases hbig : LittleEndian.decode field > FrameStyle.whole.limit max
      · simp only [hbig, if_true]
        exact .refused
      · simp only [hbig, if_false]
        exact next_of_cut hw (congrArg _ htake)
  | waiting hw hsize => exact next_of_cut hw hsize

/-- The bytes that a size asks for begin with the size, or it asks for less than
itself. -/
theorem sized_of_given (hw : Frame.sizeWidth ≤ (frame ++ rest).length)
    (hn : LittleEndian.decode ((frame ++ rest).take Frame.sizeWidth) = frame.length) :
    SelfSized frame ∨ Undersized frame := by
  by_cases hlen : Frame.sizeWidth ≤ frame.length
  · rw [List.take_append_of_le_length hlen] at hn
    exact .inl ⟨hlen, hn⟩
  · have hfield : ((frame ++ rest).take Frame.sizeWidth).length = Frame.sizeWidth :=
      List.length_take_of_le hw
    refine .inr ⟨Nat.not_le.1 hlen, _, hfield, ?_, hn⟩
    exact List.prefix_of_prefix_length_le (List.prefix_append ..) (List.take_prefix ..)
      (by omega)

theorem Holds.buffer_eq (h : Holds .whole max s bytes) : s.buffer = bytes := by
  cases h <;> rfl

/-! ## All frames that are there -/

/-- What is given out in any number of rounds, and what is left. -/
theorem frames_of_whole (h : Holds .whole max s bytes) (count : Nat) :
    ∃ part, bytes = (s.frames count).1.flatten ++ part ∧
      Holds .whole max (s.frames count).2.2 part ∧
      ∀ frame ∈ (s.frames count).1, SelfSized frame ∨ Undersized frame := by
  induction count generalizing s bytes with
  | zero => exact ⟨bytes, rfl, h, by simp [frames]⟩
  | succ count ih =>
    have hnext := next_of_whole h
    rw [frames]
    generalize s.next = step at hnext
    cases hnext with
    | refused => exact ⟨bytes, rfl, h, by simp⟩
    | waiting hs' => exact ⟨bytes, rfl, hs', by simp⟩
    | @given frame rest hbytes hw hn =>
      obtain ⟨part, hrest, hlast, hsized⟩ := ih (.fresh rest)
      subst hbytes
      refine ⟨part, ?_, hlast, List.forall_mem_cons.2 ⟨sized_of_given hw hn, hsized⟩⟩
      conv => lhs; rw [hrest]
      simp

theorem drain_of_whole (h : Holds .whole max s bytes) :
    ∃ part, bytes = s.drain.1.flatten ++ part ∧ Holds .whole max s.drain.2.2 part ∧
      ∀ frame ∈ s.drain.1, SelfSized frame ∨ Undersized frame :=
  frames_of_whole h _

/-- A round that gives out something takes it off the buffer, so that there are no more
rounds than bytes. -/
theorem frames_of_not_empty (h : Holds .whole max s bytes) {count : Nat}
    (hcount : bytes.length < count) (hempty : [] ∉ (s.frames count).1) (more : Nat) :
    s.frames (count + more) = s.frames count := by
  induction count generalizing s bytes with
  | zero => omega
  | succ count ih =>
    have hnext := next_of_whole h
    rw [Nat.add_right_comm]
    simp only [frames] at hempty ⊢
    generalize s.next = step at hnext hempty
    cases hnext with
    | refused => rfl
    | waiting => rfl
    | @given frame rest hbytes =>
      simp only [List.mem_cons, not_or] at hempty
      have hpos : 0 < frame.length := List.length_pos_iff.2 (Ne.symm hempty.1)
      have hless : rest.length < count := by
        rw [hbytes, List.length_append] at hcount
        omega
      simp only [ih (.fresh rest) hless hempty.2]

/-- A size of zero takes nothing off the buffer, and is found there again. -/
theorem length_frames_of_zero (hw : Frame.sizeWidth ≤ bytes.length)
    (hn : LittleEndian.decode (bytes.take Frame.sizeWidth) = 0) (count : Nat) :
    (frames count { style := .whole, max, buffer := bytes }).1 = List.replicate count [] := by
  induction count with
  | zero => rfl
  | succ count ih =>
    have hsplit : splitBytes? Frame.sizeWidth bytes =
        some (bytes.take Frame.sizeWidth, bytes.drop Frame.sizeWidth) :=
      splitBytes?_eq_some_iff.2 ⟨(List.take_append_drop ..).symm, List.length_take_of_le hw⟩
    have hnext : next { style := .whole, max, buffer := bytes } =
        .ok (some [], { style := .whole, max, buffer := bytes }) := by
      have hnone : splitBytes? 0 bytes = some ([], bytes) :=
        splitBytes?_eq_some_iff.2 ⟨rfl, rfl⟩
      simp only [next, hsplit, hn, Nat.not_lt_zero, if_false, cut, Nat.zero_sub, hnone]
      rfl
    rw [frames, hnext]
    simp only [ih, List.replicate_succ]

/-- Once one of the frames is empty there is a frame in every round. -/
theorem length_frames_of_empty (h : Holds .whole max s bytes) {count : Nat}
    (hempty : [] ∈ (s.frames count).1) (n : Nat) : (s.frames n).1.length = n := by
  induction count generalizing s bytes n with
  | zero => simp [frames] at hempty
  | succ count ih =>
    cases n with
    | zero => rfl
    | succ n =>
      have hnext := next_of_whole h
      simp only [frames] at hempty ⊢
      generalize s.next = step at hnext hempty
      cases hnext with
      | refused => simp at hempty
      | waiting => simp at hempty
      | @given frame rest hbytes hw hn =>
        simp only [List.mem_cons] at hempty
        rw [List.length_cons]
        rcases hempty with hzero | hrest
        · obtain rfl : bytes = rest := by rw [hbytes, ← hzero, List.nil_append]
          rw [← hzero] at hn
          rw [length_frames_of_zero hw hn n, List.length_replicate]
        · rw [ih (.fresh rest) hrest]

/-- The frames come to an end unless one of them is empty. -/
theorem ends_iff (h : Holds .whole max s bytes) : s.Ends ↔ [] ∉ s.drain.1 := by
  constructor
  · rintro ⟨count, hcount⟩ hempty
    have hmore := congrArg (·.1.length) (hcount 1)
    simp only [length_frames_of_empty h hempty] at hmore
    omega
  · intro hempty
    refine ⟨s.buffer.length + 1, fun more => frames_of_not_empty h ?_ hempty more⟩
    rw [h.buffer_eq]
    omega

end

/-! ## Streams in chunks -/

section

variable {max : Nat} {s : Splitter} {bytes : Bytes}

theorem splits_of_whole (h : Holds .whole max s bytes) (chunks : List Bytes) :
    ∃ fed left part, chunks = fed ++ left ∧ ((s.splits chunks).2.1 = none → left = []) ∧
      bytes ++ fed.flatten = (s.splits chunks).1.flatten.flatten ++ part ∧
      Holds .whole max (s.splits chunks).2.2 part ∧
      (∀ frame ∈ (s.splits chunks).1.flatten, SelfSized frame ∨ Undersized frame) ∧
      (s.Settles chunks ↔ [] ∉ (s.splits chunks).1.flatten) := by
  induction chunks generalizing s bytes with
  | nil => exact ⟨[], [], bytes, rfl, fun _ => rfl, by simp [splits], h, by simp [splits],
      by simp [splits, Settles]⟩
  | cons chunk chunks ih =>
    have hfed := h.feed chunk
    obtain ⟨part, hpart, hlast, hsized⟩ := drain_of_whole hfed
    have hends := ends_iff hfed
    rw [splits, Settles]
    generalize (s.feed chunk).drain = drained at hpart hlast hsized hends
    obtain ⟨given, failure, s'⟩ := drained
    cases failure with
    | some e =>
      refine ⟨[chunk], chunks, part, rfl, by simp, by simpa using hpart, hlast,
        by simpa using hsized, ?_⟩
      simpa using hends
    | none =>
      obtain ⟨fed, left, part', hchunks, hleft, hrest, hlast', hsized', hsettles⟩ := ih hlast
      refine ⟨chunk :: fed, left, part', by rw [hchunks]; rfl, hleft, ?_, hlast', ?_, ?_⟩
      · simp only [List.flatten_cons, List.flatten_append, List.append_assoc] at hpart hrest ⊢
        rw [← List.append_assoc, hpart, List.append_assoc, hrest]
      · simp only [List.flatten_cons, List.mem_append]
        exact fun frame hframe => hframe.elim (hsized frame) (hsized' frame)
      · simp [hends, hsettles]

/-- Whatever the stream and its chunks, the frames that are given out and what is left in
the buffer make up the chunks that were fed, which are all of them unless a size was too
big. A frame begins with its size and is as long as that says, unless the size says less
than its own four bytes: then the frame is that many bytes of the size. And giving out
all frames comes to an end after each chunk, unless a size says zero: then it does not. -/
theorem splits_whole (max : Nat) (chunks : List Bytes) :
    ∃ given failure last, splits { style := .whole, max } chunks = (given, failure, last) ∧
      (∃ fed left, chunks = fed ++ left ∧ (failure = none → left = []) ∧
        given.flatten.flatten ++ last.buffer = fed.flatten) ∧
      (∀ frame ∈ given.flatten, SelfSized frame ∨ Undersized frame) ∧
      (Settles { style := .whole, max } chunks ↔ [] ∉ given.flatten) := by
  obtain ⟨fed, left, part, hchunks, hleft, hfed, hlast, hsized, hsettles⟩ :=
    splits_of_whole (.fresh []) chunks
  refine ⟨_, _, _, rfl, ⟨fed, left, hchunks, hleft, ?_⟩, hsized, hsettles⟩
  rw [hlast.buffer_eq]
  exact hfed.symm

/-- A size of one is given out in part, and what is left of it is taken for the next
size; a size of zero is given out for ever. -/
theorem not_splits_whole :
    (splits { style := .whole, max := 64 } [[1, 0, 0, 0]] =
        ([[[1]]], none, { style := .whole, max := 64, buffer := [0, 0, 0] }) ∧
      ¬ SelfSized [1]) ∧
    ¬ Settles { style := .whole, max := 64 } [[0, 0, 0, 0]] := by
  refine ⟨⟨rfl, fun h => absurd h.1 (by decide)⟩, fun hsettles => ?_⟩
  refine (ends_iff ((Holds.fresh []).feed [0, 0, 0, 0])).1 hsettles.1 ?_
  decide

end

end NineP.Splitter
