import Mathlib.Algebra.Group.Nat.Defs
import NineP.Frame.Splitter

/-!
# Frames in chunks

A stream of frames may be cut anywhere, inside a size as well as between two
frames. A splitter that is fed the chunks gives out each frame with the chunk that
completes it:

* `Splitter.Holds`: the bytes that have arrived and have not been given out, a size
  that has been read already among them;
* `Splitter.next_of_partial`, `Splitter.next_of_frame`: with part of a frame it waits,
  and with all of one it gives it out;
* `Splitter.drain_of_holds`: so it gives out all frames that are complete;
* `Splitter.splits_wrapped`: and in the end all of them, whatever the chunks.

The one size that a splitter takes for too big, although the frame was made for the
same limit, is one that four bytes hold only just.
-/

namespace NineP

namespace FrameStyle

variable {style : FrameStyle} {max : Nat} {frame : Bytes}

/-- What is taken out of a frame. -/
def content : FrameStyle → Bytes → Bytes
  | body, frame => frame.drop Frame.sizeWidth
  | whole, frame => frame

/-- A frame whose size is its length, and one that is accepted. -/
structure Accepts (style : FrameStyle) (max : Nat) (frame : Bytes) : Prop where
  width : Frame.sizeWidth ≤ frame.length
  size : LittleEndian.decode (frame.take Frame.sizeWidth) = frame.length
  fits : frame.length ≤ style.limit max

theorem excess_le (style : FrameStyle) : style.excess ≤ Frame.sizeWidth := by
  cases style <;> decide

theorem length_content (hw : Frame.sizeWidth ≤ frame.length) :
    (style.content frame).length + style.excess = frame.length := by
  cases style with
  | body =>
    rw [content, List.length_drop]
    exact Nat.sub_add_cancel hw
  | whole => rfl

theorem content_append (hw : Frame.sizeWidth ≤ frame.length) (rest : Bytes) :
    style.content (frame ++ rest) = style.content frame ++ rest := by
  cases style with
  | body => exact List.drop_append_of_le_length hw
  | whole => rfl

end FrameStyle

namespace Splitter

/-- Feed the chunks of a stream one after the other, and take all frames that are
there after each, until there is a failure. -/
def splits : Splitter → List Bytes → List (List Bytes) × Option Fault × Splitter
  | s, [] => ([], none, s)
  | s, chunk :: chunks =>
    match (s.feed chunk).drain with
    | (given, some e, s') => ([given], some e, s')
    | (given, none, s') =>
      let (more, failure, last) := splits s' chunks
      (given :: more, failure, last)

/-- The bytes that a splitter has been fed and has not given out. Once the size of the
frame under way has been read, only what is to be taken out is kept. -/
inductive Holds (style : FrameStyle) (max : Nat) : Splitter → Bytes → Prop where
  | fresh (bytes : Bytes) : Holds style max { style, max, buffer := bytes } bytes
  | waiting {bytes : Bytes} {n : Nat} : Frame.sizeWidth ≤ bytes.length →
    LittleEndian.decode (bytes.take Frame.sizeWidth) = n + style.excess → 0 < n →
    Holds style max { style, max, awaiting := some n, buffer := style.content bytes } bytes

section

variable {style : FrameStyle} {max : Nat} {awaiting : Option Nat} {s : Splitter}
  {bytes frame rest : Bytes}

theorem Holds.feed (h : Holds style max s bytes) (chunk : Bytes) :
    Holds style max (s.feed chunk) (bytes ++ chunk) := by
  cases h with
  | fresh => exact .fresh _
  | waiting hw hsize hn =>
    rw [Splitter.feed, ← FrameStyle.content_append hw]
    refine .waiting ?_ ?_ hn
    · rw [List.length_append]
      exact Nat.le_add_right_of_le hw
    · rwa [List.take_append_of_le_length hw]

/-- A splitter that has nothing to give out is as it was in the beginning. -/
theorem Holds.eq_of_lt (h : Holds style max s bytes) (hlt : bytes.length < Frame.sizeWidth) :
    s = { style, max, buffer := bytes } := by
  cases h with
  | fresh => rfl
  | waiting hw => exact absurd hw (Nat.not_le.2 hlt)

theorem cut_append : cut { style, max, awaiting, buffer := frame ++ rest } frame.length =
    (some frame, { style, max, buffer := rest }) := by
  simp only [cut, splitBytes?_append]

theorem cut_of_lt {n : Nat} (h : bytes.length < n) :
    cut { style, max, awaiting, buffer := bytes } n =
      (none, { style, max, awaiting := some n, buffer := bytes }) := by
  simp only [cut, splitBytes?_eq_none_iff.2 h]

/-- A size that is accepted decides how many bytes are taken out. -/
theorem next_of_size (hw : Frame.sizeWidth ≤ bytes.length)
    (hsize : LittleEndian.decode (bytes.take Frame.sizeWidth) = frame.length)
    (ha : style.Accepts max frame) :
    next { style, max, buffer := bytes } =
      .ok (cut { style, max, buffer := style.content bytes } (style.content frame).length) := by
  have hsplit : splitBytes? Frame.sizeWidth bytes =
      some (bytes.take Frame.sizeWidth, bytes.drop Frame.sizeWidth) :=
    splitBytes?_eq_some_iff.2 ⟨(List.take_append_drop ..).symm, List.length_take_of_le hw⟩
  have hsmall : ¬ frame.length < style.excess :=
    Nat.not_lt.2 (Nat.le_trans style.excess_le ha.width)
  have hlen : frame.length - style.excess = (style.content frame).length :=
    Nat.sub_eq_of_eq_add (FrameStyle.length_content ha.width).symm
  simp only [next, hsplit, hsize]
  rw [if_neg (Nat.not_lt.2 ha.fits), if_neg hsmall, hlen]
  cases style <;> rfl

/-- Once the size of a frame has arrived, so much is cut off as is taken out of it. -/
theorem next_of_holds (h : Holds style max s bytes) (hw : Frame.sizeWidth ≤ bytes.length)
    (htake : bytes.take Frame.sizeWidth = frame.take Frame.sizeWidth)
    (ha : style.Accepts max frame) :
    ∃ awaiting, s.next =
      .ok (cut { style, max, awaiting, buffer := style.content bytes }
        (style.content frame).length) := by
  have hsize := (congrArg LittleEndian.decode htake).trans ha.size
  cases h with
  | fresh => exact ⟨none, next_of_size hw hsize ha⟩
  | @waiting _ n _ hn =>
    have hlen : n = (style.content frame).length := by
      have hcontent : (style.content frame).length + style.excess = frame.length :=
        FrameStyle.length_content ha.width
      omega
    exact ⟨some n, by rw [← hlen]; rfl⟩

/-- Part of a frame is kept until the rest of it arrives. -/
theorem next_of_partial (h : Holds style max s bytes) (ha : style.Accepts max frame)
    (hp : bytes <+: frame) (hlt : bytes.length < frame.length) :
    ∃ s', s.next = .ok (none, s') ∧ Holds style max s' bytes := by
  by_cases hw : Frame.sizeWidth ≤ bytes.length
  · have htake : bytes.take Frame.sizeWidth = frame.take Frame.sizeWidth := by
      obtain ⟨more, rfl⟩ := hp
      rw [List.take_append_of_le_length hw]
    have hless : (style.content bytes).length < (style.content frame).length := by
      have hpart : (style.content bytes).length + style.excess = bytes.length :=
        FrameStyle.length_content hw
      have hwhole : (style.content frame).length + style.excess = frame.length :=
        FrameStyle.length_content ha.width
      omega
    obtain ⟨awaiting, hnext⟩ := next_of_holds h hw htake ha
    rw [cut_of_lt hless] at hnext
    refine ⟨_, hnext, .waiting hw ?_ (Nat.zero_lt_of_lt hless)⟩
    rw [htake, ha.size, FrameStyle.length_content ha.width]
  · obtain rfl := h.eq_of_lt (Nat.not_le.1 hw)
    have hnone : splitBytes? Frame.sizeWidth bytes = none :=
      splitBytes?_eq_none_iff.2 (Nat.not_le.1 hw)
    exact ⟨_, by simp only [next, hnone], h⟩

/-- A frame that is complete is given out, and less is left on the buffer. -/
theorem next_of_frame (h : Holds style max s (frame ++ rest)) (ha : style.Accepts max frame) :
    s.next = .ok (some (style.content frame), { style, max, buffer := rest }) ∧
      rest.length < s.buffer.length := by
  have htake : (frame ++ rest).take Frame.sizeWidth = frame.take Frame.sizeWidth :=
    List.take_append_of_le_length ha.width
  have hw : Frame.sizeWidth ≤ (frame ++ rest).length := by
    rw [List.length_append]
    exact Nat.le_add_right_of_le ha.width
  obtain ⟨awaiting, hnext⟩ := next_of_holds h hw htake ha
  rw [FrameStyle.content_append ha.width, cut_append] at hnext
  refine ⟨hnext, ?_⟩
  generalize hb : frame ++ rest = bytes at h
  cases h with
  | fresh =>
    have hwidth : 4 ≤ frame.length := ha.width
    rw [← hb, List.length_append]
    omega
  | waiting _ hsize hn =>
    have hlen : (style.content frame).length + style.excess = frame.length :=
      FrameStyle.length_content ha.width
    rw [← hb, htake, ha.size] at hsize
    rw [← hb, FrameStyle.content_append ha.width, List.length_append]
    omega

end

/-! ## Frames of a stream -/

/-- How many of the frames are complete after so many bytes. -/
def arrived : (frames : List Bytes) → (count : Nat) → Nat
  | [], _ => 0
  | frame :: frames, count =>
    if frame.length ≤ count then arrived frames (count - frame.length) + 1 else 0

/-- Fewer bytes than the first of the frames has, if there is one. -/
def Short (bytes : Bytes) (frames : List Bytes) : Prop :=
  ∀ frame more, frames = frame :: more → bytes.length < frame.length

theorem arrived_append (done frames : List Bytes) (count : Nat) :
    arrived (done ++ frames) (done.flatten.length + count) =
      done.length + arrived frames count := by
  induction done with
  | nil =>
    rw [List.nil_append, List.flatten_nil]
    exact (congrArg _ (Nat.zero_add count)).trans (Nat.zero_add _).symm
  | cons frame done ih =>
    rw [List.cons_append, List.flatten_cons, List.length_append, Nat.add_assoc, arrived,
      if_pos (Nat.le_add_right ..), Nat.add_sub_cancel_left, ih, List.length_cons]
    omega

theorem arrived_of_short {bytes : Bytes} {frames : List Bytes} (h : Short bytes frames) :
    arrived frames bytes.length = 0 := by
  cases frames with
  | nil => rfl
  | cons frame frames => exact if_neg (Nat.not_le.2 (h frame frames rfl))

/-- All bytes of some frames are too few for the first of them only if there is none. -/
theorem Short.eq_nil {frames : List Bytes} (h : Short frames.flatten frames) : frames = [] := by
  cases frames with
  | nil => rfl
  | cons frame frames =>
    have hlt := h frame frames rfl
    rw [List.flatten_cons, List.length_append] at hlt
    omega

section

variable {style : FrameStyle} {max : Nat} {s : Splitter} {bytes : Bytes} {frames : List Bytes}

/-- What a splitter gives out at once: the frames that are complete, and what is left
is part of the next one. -/
structure Drained (style : FrameStyle) (max : Nat) (frames : List Bytes) (bytes : Bytes)
    (r : List Bytes × Option Fault × Splitter) (done left : List Bytes) (part : Bytes) :
    Prop where
  frames : frames = done ++ left
  bytes : bytes = done.flatten ++ part
  short : Short part left
  given : r.1 = done.map style.content
  failure : r.2.1 = none
  holds : Holds style max r.2.2 part

/-- A splitter with the beginning of a row of frames gives out those that are
complete. A frame takes something off the buffer, so that as many rounds as there are
bytes, and one, are enough. -/
theorem frames_of_holds {count : Nat} (h : Holds style max s bytes)
    (hcount : s.buffer.length < count) (ha : ∀ frame ∈ frames, style.Accepts max frame)
    (hp : bytes <+: frames.flatten) :
    ∃ done left part, Drained style max frames bytes (s.frames count) done left part := by
  induction frames generalizing s bytes count with
  | nil =>
    obtain rfl := List.prefix_nil.1 hp
    obtain rfl := h.eq_of_lt (by decide)
    obtain ⟨count, rfl⟩ := Nat.exists_eq_add_of_lt hcount
    exact ⟨[], [], [], rfl, rfl, fun _ _ h => (by cases h), rfl, rfl, .fresh []⟩
  | cons frame frames ih =>
    obtain ⟨count, rfl⟩ : ∃ n, count = n + 1 := ⟨count - 1, by omega⟩
    have hframe := ha frame (List.mem_cons_self ..)
    by_cases hlt : bytes.length < frame.length
    · have hpart : bytes <+: frame :=
        List.prefix_of_prefix_length_le hp (List.prefix_append ..) (Nat.le_of_lt hlt)
      obtain ⟨s', hnext, hs'⟩ := next_of_partial h hframe hpart hlt
      have hr : s.frames (count + 1) = ([], none, s') := by rw [Splitter.frames, hnext]
      rw [hr]
      refine ⟨[], frame :: frames, bytes, rfl, rfl, fun _ _ h => ?_, rfl, rfl, hs'⟩
      obtain ⟨rfl, -⟩ := List.cons.inj h
      exact hlt
    · obtain ⟨rest, rfl⟩ : frame <+: bytes :=
        List.prefix_of_prefix_length_le (List.prefix_append ..) hp (Nat.not_lt.1 hlt)
      obtain ⟨hnext, hless⟩ := next_of_frame h hframe
      let s' : Splitter := { style, max, buffer := rest }
      have hcount' : s'.buffer.length < count := by
        show rest.length < count
        omega
      obtain ⟨done, left, part, hd⟩ := ih (.fresh rest) hcount'
        (fun f hf => ha f (List.mem_cons_of_mem _ hf)) ((List.prefix_append_right_inj frame).1 hp)
      have hr : s.frames (count + 1) =
          (style.content frame :: (s'.frames count).1, (s'.frames count).2) := by
        rw [Splitter.frames, hnext]
      rw [hr]
      refine ⟨frame :: done, left, part, ?_, ?_, hd.short, ?_, hd.failure, hd.holds⟩
      · rw [hd.frames, List.cons_append]
      · rw [hd.bytes, List.flatten_cons, List.append_assoc]
      · rw [hd.given, List.map_cons]

theorem drain_of_holds (h : Holds style max s bytes)
    (ha : ∀ frame ∈ frames, style.Accepts max frame) (hp : bytes <+: frames.flatten) :
    ∃ done left part, Drained style max frames bytes s.drain done left part :=
  frames_of_holds h (Nat.lt_succ_self _) ha hp

/-- However the rest of a stream comes, each frame in it is given out with the chunk
that completes it. -/
theorem splits_of_holds {chunks : List Bytes} (h : Holds style max s bytes)
    (hs : Short bytes frames) (ha : ∀ frame ∈ frames, style.Accepts max frame)
    (hc : bytes ++ chunks.flatten = frames.flatten) :
    ∃ given, s.splits chunks = (given, none, { style, max }) ∧ given.length = chunks.length ∧
      ∀ k, (given.take k).flatten =
        (frames.take (arrived frames (bytes ++ (chunks.take k).flatten).length)).map
          style.content := by
  induction chunks generalizing s bytes frames with
  | nil =>
    rw [List.flatten_nil, List.append_nil] at hc
    obtain rfl := (hc ▸ hs).eq_nil
    obtain rfl : bytes = [] := hc
    obtain rfl := h.eq_of_lt (by decide)
    exact ⟨[], rfl, rfl, fun k => by rw [List.take_nil, List.take_nil]; rfl⟩
  | cons chunk chunks ih =>
    rw [List.flatten_cons, ← List.append_assoc] at hc
    obtain ⟨done, left, part, hd⟩ := drain_of_holds (h.feed chunk) ha ⟨_, hc⟩
    have hleft : part ++ chunks.flatten = left.flatten := by
      rw [hd.bytes, hd.frames, List.flatten_append, List.append_assoc] at hc
      exact List.append_cancel_left hc
    obtain ⟨more, hmore, hlen, htaken⟩ := ih hd.holds hd.short
      (fun f hf => ha f (hd.frames ▸ List.mem_append_right _ hf)) hleft
    have hdrain : (s.feed chunk).drain =
        (done.map style.content, none, (s.feed chunk).drain.2.2) := by
      rw [← hd.given, ← hd.failure]
    refine ⟨done.map style.content :: more, ?_, congrArg (· + 1) hlen, fun k => ?_⟩
    · rw [splits, hdrain]
      simp only [hmore]
    · cases k with
      | zero =>
        have hnone : arrived frames (bytes ++ []).length = 0 := by
          rw [List.append_nil, arrived_of_short hs]
        show [] = (frames.take (arrived frames (bytes ++ []).length)).map style.content
        rw [hnone]
        rfl
      | succ k =>
        have hbytes : bytes ++ ((chunk :: chunks).take (k + 1)).flatten =
            done.flatten ++ (part ++ (chunks.take k).flatten) := by
          rw [List.take_succ_cons, List.flatten_cons, ← List.append_assoc, hd.bytes,
            List.append_assoc]
        rw [hbytes, List.length_append, hd.frames, arrived_append, List.take_length_add_append,
          List.map_append, List.take_succ_cons, List.flatten_cons, htaken]

end

/-! ## Frames that were made for the same limit -/

/-- A body with its size in front. -/
def framed (body : Bytes) : Bytes :=
  LittleEndian.encode Frame.sizeWidth (body.length + Frame.sizeWidth) ++ body

theorem length_framed (body : Bytes) : (framed body).length = body.length + 4 := by
  rw [framed, List.length_append, LittleEndian.length_encode]
  exact Nat.add_comm ..

theorem content_framed (body : Bytes) : FrameStyle.body.content (framed body) = body :=
  List.drop_left' (LittleEndian.length_encode ..)

/-- The size in a frame is its length, if four bytes hold it. -/
theorem size_framed {body : Bytes} (h : body.length + 4 < 2 ^ 32) :
    LittleEndian.decode ((framed body).take Frame.sizeWidth) = (framed body).length := by
  have hrange : body.length + Frame.sizeWidth < LittleEndian.range Frame.sizeWidth := h
  rw [length_framed, framed, List.take_left' (LittleEndian.length_encode ..),
    LittleEndian.decode_encode hrange]
  rfl

theorem wrap_eq_framed {max : Nat} {body : Bytes} (h : body.length ≤ FrameStyle.body.limit max) :
    Frame.wrap .body max body = .ok (framed body) := if_neg (Nat.not_lt.2 h)

theorem mapM_wrap {max : Nat} {bodies : List Bytes}
    (h : ∀ body ∈ bodies, body.length ≤ FrameStyle.body.limit max) :
    bodies.mapM (Frame.wrap .body max) = .ok (bodies.map framed) := by
  induction bodies with
  | nil => rfl
  | cons body bodies ih =>
    have hbodies := ih fun b hb => h b (List.mem_cons_of_mem _ hb)
    rw [List.mapM_cons, wrap_eq_framed (h body (List.mem_cons_self ..)), hbodies]
    rfl

/-- The frame of a body is accepted if its size is. -/
theorem accepts_framed {style : FrameStyle} {max : Nat} {body : Bytes} (hmost : max < 2 ^ 32)
    (h : body.length + 4 ≤ style.limit max) : style.Accepts max (framed body) := by
  have hrange : body.length + 4 < 2 ^ 32 :=
    Nat.lt_of_le_of_lt (Nat.le_trans h (Nat.min_le_left ..)) hmost
  refine ⟨?_, size_framed hrange, ?_⟩
  · rw [length_framed]
    exact Nat.le_add_left ..
  · rw [length_framed]
    exact h

/-- What is taken out of the frames of some bodies. -/
def outcome (style : FrameStyle) (bodies : List Bytes) : List Bytes :=
  match style with
  | .body => bodies
  | .whole => bodies.map framed

theorem map_content_framed (style : FrameStyle) (bodies : List Bytes) :
    (bodies.map framed).map style.content = outcome style bodies := by
  cases style with
  | body =>
    rw [List.map_map]
    exact (List.map_congr_left fun body _ => content_framed body).trans (List.map_id _)
  | whole => exact List.map_id _

/-- Bodies that fit a limit are framed, and whatever chunks the stream of their frames
is cut into, a splitter for the same limit gives out each body, or each whole frame,
with the chunk that completes it, and is then as it was in the beginning. If bodies are
to be taken out, then the sizes of their frames have to be at least four less than the
largest number that four bytes hold. -/
theorem splits_wrapped {max : Nat} (hleast : 4 ≤ max) (hmost : max < 2 ^ 32) {bodies : List Bytes}
    (hfit : ∀ body ∈ bodies, body.length ≤ max - 4) :
    bodies.mapM (Frame.wrap .body max) = .ok (bodies.map framed) ∧
    ∀ (style : FrameStyle) (chunks : List Bytes), chunks.flatten = (bodies.map framed).flatten →
      (style = .body → ∀ body ∈ bodies, body.length ≤ 2 ^ 32 - 9) →
      ∃ given, splits { style, max } chunks = (given, none, { style, max }) ∧
        given.length = chunks.length ∧ given.flatten = outcome style bodies ∧
        ∀ k, (given.take k).flatten = (outcome style bodies).take
          (arrived (bodies.map framed) (chunks.take k).flatten.length) := by
  refine ⟨mapM_wrap fun body hb => ?_, fun style chunks hc hlargest => ?_⟩
  · have := hfit body hb
    refine Nat.le_min.2 ⟨by omega, ?_⟩
    show body.length ≤ 2 ^ 32 - 1 - 4
    omega
  have ha : ∀ frame ∈ bodies.map framed, style.Accepts max frame := by
    intro frame hf
    obtain ⟨body, hb, rfl⟩ := List.mem_map.1 hf
    have := hfit body hb
    refine accepts_framed hmost (Nat.le_min.2 ⟨by omega, ?_⟩)
    cases style with
    | body =>
      have := hlargest rfl body hb
      show body.length + 4 ≤ 2 ^ 32 - 1 - 4
      omega
    | whole =>
      show body.length + 4 ≤ 2 ^ 32 - 1
      omega
  have hshort : Short [] (bodies.map framed) := fun frame more h =>
    Nat.lt_of_lt_of_le (by decide) (ha frame (h ▸ List.mem_cons_self ..)).width
  obtain ⟨given, hsplits, hlen, hgiven⟩ := splits_of_holds (.fresh []) hshort ha hc
  have htaken (k : Nat) : (given.take k).flatten = (outcome style bodies).take
      (arrived (bodies.map framed) (chunks.take k).flatten.length) := by
    rw [hgiven, List.map_take, map_content_framed]
    rfl
  refine ⟨given, hsplits, hlen, ?_, htaken⟩
  have harrived : arrived (bodies.map framed) chunks.flatten.length =
      (bodies.map framed).length := by
    have h := arrived_append (bodies.map framed) [] 0
    rwa [List.append_nil, ← hc] at h
  have hcount : (bodies.map framed).length = (outcome style bodies).length := by
    rw [← map_content_framed style, List.length_map style.content]
  have hall := htaken chunks.length
  rwa [← hlen, List.take_length, hlen, List.take_length, harrived, hcount, List.take_length] at hall

/-- Two frames, the second of which has an empty body, cut inside the first size, in
front of an empty chunk and inside the second size. -/
def cutChunks : List Bytes := [[6, 0], [0], [], [0, 1, 2, 4, 0], [0, 0]]

theorem splits_wrapped_two_bodies :
    (4 ≤ 8 ∧ 8 < 2 ^ 32 ∧ ∀ body ∈ [[1, 2], ([] : Bytes)], body.length ≤ 8 - 4) ∧
      ∃ given, splits { style := .body, max := 8 } cutChunks =
          (given, none, { style := .body, max := 8 }) ∧
        given.flatten = [[1, 2], []] ∧ (given.take 4).flatten = [[1, 2]] := by
  have hfit : ∀ body ∈ [[1, 2], ([] : Bytes)], body.length ≤ 8 - 4 := by decide
  obtain ⟨-, hsplits⟩ := splits_wrapped (by decide) (by decide) hfit
  obtain ⟨given, hgiven, -, hall, htaken⟩ := hsplits .body cutChunks rfl fun _ => by decide
  exact ⟨⟨by decide, by decide, hfit⟩, given, hgiven, hall, htaken 4⟩

/-! ## The largest frames -/

/-- A body whose frame has a size that four bytes hold only just. -/
def largestBody : Bytes := List.replicate (2 ^ 32 - 8) 0

/-- The size of its frame. -/
def largestSize : Bytes := [252, 255, 255, 255]

theorem framed_largestBody : framed largestBody = largestSize ++ largestBody := by
  rw [framed, show largestBody.length = 2 ^ 32 - 8 from List.length_replicate]
  rfl

/-- Such a body fits the largest limit and is framed for it, but a splitter for the
same limit refuses its size, before anything of the body has arrived. -/
theorem not_splits_largest :
    largestBody.length ≤ (2 ^ 32 - 1) - 4 ∧
      [largestBody].mapM (Frame.wrap .body (2 ^ 32 - 1)) = .ok [framed largestBody] ∧
      [largestSize, largestBody].flatten = [framed largestBody].flatten ∧
      splits { style := .body, max := 2 ^ 32 - 1 } [largestSize, largestBody] =
        ([[]], some .frameTooBig,
          { style := .body, max := 2 ^ 32 - 1, buffer := largestSize }) := by
  have hlen : largestBody.length = 4294967288 := List.length_replicate
  refine ⟨?_, mapM_wrap fun body hb => ?_, ?_, rfl⟩
  · rw [hlen]
    decide
  · rw [List.mem_singleton.1 hb, hlen]
    decide
  · rw [List.flatten_cons, List.flatten_singleton, List.flatten_singleton, framed_largestBody]

end Splitter

end NineP
