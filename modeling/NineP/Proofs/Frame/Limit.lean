import NineP.Proofs.Frame.Chunks

/-!
# One limit for both directions

What is framed keeps a limit as soon as the length of its body does; what is split has to
keep it with the size of the frame, which counts its own four bytes too.

* `Splitter.next_of_tooBig`: a size over the limit is refused as soon as it is there;
* `Splitter.splits_of_tooBig`: so it is with the chunk that completes the size, whatever
  the chunks, and nothing is given out before;
* `Splitter.splits_own_frame`: what becomes of the frame of a body in a splitter for the
  limit that it was framed for;
* `Splitter.not_splits_own_frame`: a body that is framed and is not given out again.
-/

namespace NineP

namespace Splitter

section

variable {style : FrameStyle} {max : Nat} {bytes frame : Bytes}

/-- As long as part of a size is missing, a splitter waits. -/
theorem drain_of_short (h : bytes.length < Frame.sizeWidth) :
    drain { style, max, buffer := bytes } = ([], none, { style, max, buffer := bytes }) := by
  have hnext : next { style, max, buffer := bytes } =
      .ok (none, { style, max, buffer := bytes }) := by
    simp only [next, splitBytes?_eq_none_iff.2 h]
  rw [drain, frames, hnext]

/-- A size over the limit is refused as soon as it is there. -/
theorem next_of_tooBig (hw : Frame.sizeWidth ≤ bytes.length)
    (hbig : style.limit max < LittleEndian.decode (bytes.take Frame.sizeWidth)) :
    next { style, max, buffer := bytes } = .error .frameTooBig := by
  have hsplit : splitBytes? Frame.sizeWidth bytes =
      some (bytes.take Frame.sizeWidth, bytes.drop Frame.sizeWidth) :=
    splitBytes?_eq_some_iff.2 ⟨(List.take_append_drop ..).symm, List.length_take_of_le hw⟩
  simp only [next, hsplit]
  exact if_pos hbig

/-- The chunks are fed up to the one that completes a size. Nothing is given out with any
of them, and then the size is refused. -/
structure Refused (style : FrameStyle) (max : Nat) (bytes : Bytes) (chunks : List Bytes)
    (before : List Bytes) (chunk : Bytes) : Prop where
  fed : before ++ [chunk] <+: chunks
  short : (bytes ++ before.flatten).length < Frame.sizeWidth
  complete : Frame.sizeWidth ≤ (bytes ++ before.flatten ++ chunk).length
  splits : splits { style, max, buffer := bytes } chunks =
    (List.replicate (before.length + 1) [], some .frameTooBig,
      { style, max, buffer := bytes ++ before.flatten ++ chunk })

/-- A frame with a size over the limit is refused, whatever the chunks. -/
theorem splits_of_tooBig {chunks : List Bytes} (hw : Frame.sizeWidth ≤ frame.length)
    (hbig : style.limit max < LittleEndian.decode (frame.take Frame.sizeWidth))
    (hb : bytes.length < Frame.sizeWidth) (hc : bytes ++ chunks.flatten = frame) :
    ∃ before chunk, Refused style max bytes chunks before chunk := by
  induction chunks generalizing bytes with
  | nil =>
    rw [List.flatten_nil, List.append_nil] at hc
    exact absurd hw (Nat.not_le.2 (hc ▸ hb))
  | cons chunk chunks ih =>
    rw [List.flatten_cons, ← List.append_assoc] at hc
    by_cases hless : (bytes ++ chunk).length < Frame.sizeWidth
    · obtain ⟨before, last, hr⟩ := ih hless hc
      have hall : bytes ++ (chunk :: before).flatten = bytes ++ chunk ++ before.flatten := by
        rw [List.flatten_cons, List.append_assoc]
      refine ⟨chunk :: before, last, (List.prefix_cons_inj chunk).2 hr.fed, ?_, ?_, ?_⟩
      · rw [hall]
        exact hr.short
      · rw [hall]
        exact hr.complete
      · rw [hall, Splitter.splits, feed, drain_of_short hless]
        simp only [hr.splits]
        rfl
    · have hthere : Frame.sizeWidth ≤ (bytes ++ chunk).length := Nat.not_lt.1 hless
      have htake : (bytes ++ chunk).take Frame.sizeWidth = frame.take Frame.sizeWidth := by
        rw [← hc, List.take_append_of_le_length hthere]
      have hnext : next { style, max, buffer := bytes ++ chunk } = .error .frameTooBig :=
        next_of_tooBig hthere (htake ▸ hbig)
      refine ⟨[], chunk, ⟨chunks, rfl⟩, ?_, ?_, ?_⟩
      · rw [List.flatten_nil, List.append_nil]
        exact hb
      · rw [List.flatten_nil, List.append_nil]
        exact hthere
      · rw [List.flatten_nil, List.append_nil, Splitter.splits, feed, drain, frames, hnext]
        rfl

end

/-! ## The frame of a body -/

section

variable {max : Nat} {body : Bytes}

/-- A body is framed exactly if its length keeps the limit. -/
theorem wrap_eq (max : Nat) (body : Bytes) : Frame.wrap .body max body =
    if body.length ≤ FrameStyle.body.limit max then .ok (framed body)
    else .error .bodyTooBig := by
  by_cases h : body.length ≤ FrameStyle.body.limit max
  · rw [if_pos h, wrap_eq_framed h]
  · rw [if_neg h]
    exact if_pos (Nat.not_le.1 h)

/-- For every limit below 2³² a body is framed exactly if it is no longer than the limit
and four bytes hold the size of its frame. Whatever chunks the frame comes in, a splitter
for the same limit gives out exactly the body, and nothing is left over, if the frame with
its size is no longer than the limit; otherwise it gives out nothing and refuses the size
with the chunk that completes it. The two differ by the four bytes of the size: a body that
fits with less than four bytes to spare is framed and then refused. -/
theorem splits_own_frame (hmost : max < 2 ^ 32) (body : Bytes) :
    (Frame.wrap .body max body = if body.length ≤ min max (2 ^ 32 - 5) then .ok (framed body)
      else .error .bodyTooBig) ∧
    ∀ frame, Frame.wrap .body max body = .ok frame → ∀ chunks : List Bytes,
      chunks.flatten = frame →
      (body.length + 4 ≤ min max (2 ^ 32 - 5) → ∃ given,
        splits { style := .body, max } chunks = (given, none, { style := .body, max }) ∧
          given.flatten = [body]) ∧
      (min max (2 ^ 32 - 5) < body.length + 4 → ∃ before chunk,
        Refused .body max [] chunks before chunk) := by
  have hlimit : min max (2 ^ 32 - 5) = FrameStyle.body.limit max := rfl
  rw [hlimit]
  refine ⟨wrap_eq max body, fun frame hframe chunks hc => ?_⟩
  have hfit : body.length ≤ FrameStyle.body.limit max := by
    rw [wrap_eq] at hframe
    split at hframe
    · assumption
    · cases hframe
  rw [wrap_eq_framed hfit] at hframe
  obtain rfl := Except.ok.inj hframe
  refine ⟨fun hkeeps => ?_, fun hbig => ?_⟩
  · have ha : ∀ frame ∈ [framed body], FrameStyle.body.Accepts max frame := by
      intro frame hmem
      obtain rfl := List.mem_singleton.1 hmem
      exact accepts_framed hmost hkeeps
    have hshort : Short [] [framed body] := fun frame more h =>
      Nat.lt_of_lt_of_le (by decide) (ha frame (h ▸ List.mem_cons_self ..)).width
    have hflat : [] ++ chunks.flatten = [framed body].flatten := by
      rw [List.nil_append, hc, List.flatten_singleton]
    obtain ⟨given, hgiven, hlen, htaken⟩ := splits_of_holds (.fresh []) hshort ha hflat
    refine ⟨given, hgiven, ?_⟩
    have hall := htaken chunks.length
    have harrived : arrived [framed body] (framed body).length = 1 := by
      rw [arrived, if_pos (Nat.le_refl _)]
      rfl
    rw [← hlen, List.take_length, hlen, List.take_length, List.nil_append, hc, harrived] at hall
    rw [hall]
    show [FrameStyle.body.content (framed body)] = [body]
    rw [content_framed]
  · have hwidth : Frame.sizeWidth ≤ (framed body).length := by
      rw [length_framed]
      exact Nat.le_add_left ..
    -- The limit leaves room for the four bytes of the size.
    have hrange : body.length + 4 < 2 ^ 32 := by
      have hle : body.length ≤ 2 ^ 32 - 1 - 4 := Nat.le_trans hfit (Nat.min_le_right ..)
      omega
    have hsize : FrameStyle.body.limit max <
        LittleEndian.decode ((framed body).take Frame.sizeWidth) := by
      rw [size_framed hrange, length_framed]
      exact hbig
    exact splits_of_tooBig hwidth hsize (by decide) hc

/-- With a limit of eight bytes a body of four comes back; one of five is framed too, and
is refused. -/
theorem splits_own_frame_of_eight :
    8 < 2 ^ 32 ∧
    (Frame.wrap .body 8 [1, 2, 3, 4] = .ok [8, 0, 0, 0, 1, 2, 3, 4] ∧
      ∃ given, splits { style := .body, max := 8 } [[8, 0, 0], [0, 1, 2, 3, 4]] =
        (given, none, { style := .body, max := 8 }) ∧ given.flatten = [[1, 2, 3, 4]]) ∧
    (Frame.wrap .body 8 [1, 2, 3, 4, 5] = .ok [9, 0, 0, 0, 1, 2, 3, 4, 5] ∧
      ∃ before chunk, Refused .body 8 [] [[9, 0, 0], [0, 1, 2, 3, 4], [5]] before chunk) := by
  have hmost : 8 < 2 ^ 32 := by decide
  obtain ⟨hfour, hback⟩ := splits_own_frame hmost [1, 2, 3, 4]
  obtain ⟨hfive, hrefused⟩ := splits_own_frame hmost [1, 2, 3, 4, 5]
  exact ⟨hmost, ⟨hfour, (hback _ hfour _ rfl).1 (by decide)⟩,
    hfive, (hrefused _ hfive _ rfl).2 (by decide)⟩

/-- Not every body that is framed for a limit is given out again for the same limit. -/
theorem not_splits_own_frame :
    ¬ ∀ (max : Nat) (body frame : Bytes), max < 2 ^ 32 → Frame.wrap .body max body = .ok frame →
      ∃ last, splits { style := .body, max } [frame] = ([[body]], none, last) := by
  intro h
  obtain ⟨last, hlast⟩ := h 8 [97, 98, 99, 100, 101] [9, 0, 0, 0, 97, 98, 99, 100, 101]
    (by decide) rfl
  have hrefused : (splits { style := .body, max := 8 }
      [[9, 0, 0, 0, 97, 98, 99, 100, 101]]).2.1 = some .frameTooBig := by decide
  rw [hlast] at hrefused
  cases hrefused

end

end Splitter

end NineP
