import NineP.Proofs.World.Peer

/-!
# Responses put together from pieces

What an exchange makes of the stream that it finds after its request, stated
without the pieces in which the stream arrives (`Exchange.outcome`):

* `Exchange.Always.collect`: the loop takes exactly the wanted bytes off the
  stream, unless the stream ends or the time limit passes first;
* `Exchange.collectFrom_of_le`: the number of receives that are allowed for does
  not matter once there is one for each byte;
* `Exchange.Always.exchange`: what comes of an exchange, with every peer;
* `Exchange.reassembly`: without a time limit that is `outcome`, whatever the
  pieces.
-/

namespace NineP

namespace Exchange

variable {M : Manners}

/-- What may come of receiving `wanted` bytes behind those in `front`. -/
inductive Collected (M : Manners) (wanted : Nat) (front : Bytes) (p : Peer) :
    Except Error Bytes → Peer → Prop where
  | all : wanted ≤ p.stream.length →
    Collected M wanted front p (.ok (front ++ p.stream.take wanted)) (p.skip wanted)
  | ended : M.ends → p.stream.length < wanted →
    Collected M wanted front p (.error (.transport .closedMidResponse)) (p.skip p.stream.length)
  | stalled (k : Nat) : M.stalls → k < wanted →
    Collected M wanted front p (.error .timedOut) (p.skip k)

theorem Collected.nothing {front : Bytes} {p : Peer} : Collected M 0 front p (.ok front) p := by
  have h : Collected M 0 front p (.ok (front ++ p.stream.take 0)) (p.skip 0) := .all (Nat.zero_le _)
  rwa [List.take_zero, List.append_nil] at h

/-- One piece is received, and then the rest. -/
theorem Collected.receive {wanted n : Nat} {front : Bytes} {p q : Peer} {r : Except Error Bytes}
    (hn : n ≤ wanted) (hp : n ≤ p.stream.length)
    (h : Collected M (wanted - n) (front ++ p.stream.take n) (p.skip n) r q) :
    Collected M wanted front p r q := by
  have hw : n + (wanted - n) = wanted := Nat.add_sub_cancel' hn
  have hlen : (p.skip n).stream.length = p.stream.length - n := List.length_drop
  cases h with
  | all hl =>
    have htake : front ++ p.stream.take n ++ (p.skip n).stream.take (wanted - n) =
        front ++ p.stream.take wanted := by
      rw [List.append_assoc, Peer.stream_skip, ← List.take_add, hw]
    rw [htake, Peer.skip_skip, hw]
    exact .all (by omega)
  | ended he hl =>
    rw [Peer.skip_skip, hlen, Nat.add_sub_cancel' hp]
    exact .ended he (by omega)
  | stalled k hs hk =>
    rw [Peer.skip_skip]
    exact .stalled (n + k) hs (by omega)

/-- A receive takes a piece, finds the end of the stream or is given up. -/
theorem Always.receive {most : Nat} {p : Peer} (h : 0 < most) :
    Always (Peer.Step M) (receive most) p fun r q =>
      (∃ n, 0 < n ∧ n ≤ most ∧ n ≤ p.stream.length ∧ r = .ok (p.stream.take n) ∧ q = p.skip n) ∨
      (M.ends ∧ p.stream = [] ∧ r = .ok [] ∧ q = p) ∨
      (M.stalls ∧ r = .error .timedOut ∧ q = p) := by
  show Always _ (Exchange.call _ >>= fun bytes => Pure.pure (bytes.take most)) _ _
  rw [← map_eq_pure_bind]
  refine .map (.call fun answer q hs => ?_)
  cases hs with
  | receive n h0 hm hl =>
    refine .inl ⟨n, h0, hm, hl, ?_, rfl⟩
    show Except.ok ((p.stream.take n).take most) = _
    rw [List.take_take, Nat.min_eq_right hm]
  | ended he hp =>
    refine .inr (.inl ⟨he, hp, ?_, rfl⟩)
    show Except.ok (List.take most []) = _
    rw [List.take_nil]
  | stalled hs => exact .inr (.inr ⟨hs, rfl, rfl⟩)
  | nothing => exact absurd h (Nat.lt_irrefl 0)

theorem Always.collectFrom {fuel wanted : Nat} {acc : Bytes} {p : Peer} (h : wanted ≤ fuel) :
    Always (Peer.Step M) (collectFrom fuel wanted acc) p (Collected M wanted acc.reverse p) := by
  induction fuel generalizing wanted acc p with
  | zero =>
    obtain rfl := Nat.le_zero.1 h
    exact .pure .nothing
  | succ fuel ih =>
    cases wanted with
    | zero => exact .pure .nothing
    | succ wanted =>
      have hpos : 0 < wanted + 1 := Nat.succ_pos wanted
      refine (Always.receive hpos).bind (fun bytes q hq => ?_) fun e q hq => ?_
      · rcases hq with ⟨n, h0, hm, hl, hb, rfl⟩ | ⟨he, hp, hb, rfl⟩ | ⟨-, hb, -⟩
        · obtain rfl := Except.ok.inj hb
          have hlen : (p.stream.take n).length = n := List.length_take_of_le hl
          have hne : ¬ (p.stream.take n).isEmpty = true := by
            rw [List.isEmpty_iff_length_eq_zero, hlen]
            exact Nat.ne_of_gt h0
          show Always _ (if _ then _ else _) _ _
          rw [if_neg hne, hlen]
          refine (ih (by omega)).mono fun r q hr => ?_
          rw [List.reverseAux_eq, List.reverse_append, List.reverse_reverse] at hr
          exact hr.receive hm hl
        · obtain rfl := Except.ok.inj hb
          have hend : Collected M (wanted + 1) acc.reverse q _ (q.skip q.stream.length) :=
            .ended he (by rw [hp]; exact hpos)
          rw [hp, List.length_nil, Peer.skip_zero] at hend
          exact .throw hend
        · cases hb
      · rcases hq with ⟨n, -, -, -, hb, -⟩ | ⟨-, -, hb, -⟩ | ⟨hs, hb, rfl⟩
        · cases hb
        · cases hb
        · obtain rfl := Except.error.inj hb
          exact Collected.stalled 0 hs hpos

/-- One receive for each byte is enough. -/
theorem collectFrom_of_le {fuel wanted : Nat} {acc : Bytes} (h : wanted ≤ fuel) :
    Exchange.collectFrom (fuel + 1) wanted acc = Exchange.collectFrom fuel wanted acc := by
  induction fuel generalizing wanted acc with
  | zero =>
    obtain rfl := Nat.le_zero.1 h
    rfl
  | succ fuel ih =>
    cases wanted with
    | zero => rfl
    | succ wanted =>
      show (Exchange.receive (wanted + 1) >>= fun bytes => _ : Exchange Bytes) = _
      refine congrArg (Exchange.receive (wanted + 1) >>= ·) (funext fun bytes => ?_)
      by_cases hb : bytes.isEmpty
      · rw [if_pos hb, if_pos hb]
      · rw [if_neg hb, if_neg hb]
        have : bytes.length ≠ 0 := fun h0 => hb (by rw [List.isEmpty_iff_length_eq_zero, h0])
        exact ih (by omega)

theorem Always.collect {wanted : Nat} {p : Peer} :
    Always (Peer.Step M) (collect wanted) p (Collected M wanted [] p) :=
  Always.collectFrom (Nat.le_refl wanted)

/-- What a stream yields as a response of at most `capacity` bytes, and how many
of its bytes that takes. -/
def outcome (capacity : Nat) (stream : Bytes) : Except Error Bytes × Nat :=
  let size := LittleEndian.decode (stream.take 4)
  if stream.length < 4 then (.error (.transport .closedMidResponse), stream.length)
  else if capacity < size then (.error (.bufferTooSmall size capacity), 4)
  else if size < 7 then (.error (.decode (.responseTooShort size)), 4)
  else if stream.length < size then (.error (.transport .closedMidResponse), stream.length)
  else (.ok (stream.take size), size)

/-- The results that a stream may have. -/
theorem result_of_outcome {capacity n : Nat} {stream : Bytes} {r : Except Error Bytes}
    (h : outcome capacity stream = (r, n)) :
    (∃ frame, r = .ok frame) ∨ r = .error (.transport .closedMidResponse) ∨
      ∃ size, r = .error (.bufferTooSmall size capacity) ∨
        r = .error (.decode (.responseTooShort size)) := by
  rw [outcome] at h
  by_cases h4 : stream.length < 4
  · rw [if_pos h4] at h
    cases h
    exact .inr (.inl rfl)
  rw [if_neg h4] at h
  by_cases hc : capacity < LittleEndian.decode (stream.take 4)
  · rw [if_pos hc] at h
    cases h
    exact .inr (.inr ⟨_, .inl rfl⟩)
  rw [if_neg hc] at h
  by_cases h7 : LittleEndian.decode (stream.take 4) < 7
  · rw [if_pos h7] at h
    cases h
    exact .inr (.inr ⟨_, .inr rfl⟩)
  rw [if_neg h7] at h
  by_cases hs : stream.length < LittleEndian.decode (stream.take 4)
  · rw [if_pos hs] at h
    cases h
    exact .inr (.inl rfl)
  · rw [if_neg hs] at h
    cases h
    exact .inl ⟨_, rfl⟩

/-- A stream that ends too early is a transport failure of its kind, and a size
that is too small makes a malformed response. -/
theorem kind_of_outcome {capacity n : Nat} {stream : Bytes} {r : Except Error Bytes}
    (h : outcome capacity stream = (r, n)) :
    (∀ fault, r = .error (.transport fault) → fault.kind = .unexpectedEnd) ∧
    (∀ fault, r = .error (.decode fault) → fault.kind = .invalidData) := by
  rcases result_of_outcome h with ⟨frame, rfl⟩ | rfl | ⟨size, rfl | rfl⟩
  · exact ⟨by rintro _ ⟨⟩, by rintro _ ⟨⟩⟩
  · exact ⟨by rintro _ ⟨⟩; rfl, by rintro _ ⟨⟩⟩
  · exact ⟨by rintro _ ⟨⟩, by rintro _ ⟨⟩⟩
  · exact ⟨by rintro _ ⟨⟩, by rintro _ ⟨⟩; rfl⟩

/-- With every peer, an exchange has the outcome of the stream that it finds
after its request, unless it is given up while something may be left of it. -/
theorem Always.exchange {request : Bytes} {capacity : Nat} {limit : Option UInt64} {p : Peer} :
    Always (Peer.Step M) (exchange request capacity limit) p fun r q =>
      ∃ reply, M.answers p.log request reply ∧
        ((∃ n, outcome capacity (p.stream ++ reply) = (r, n) ∧
            q = (p.served request reply).skip n) ∨
          M.stalls ∧ r = .error .timedOut ∧ ∃ k, q = (p.served request reply).skip k) := by
  refine (Always.perform (Q := fun r q => r = .ok () ∧ ∃ reply, M.answers p.log request reply ∧
    q = p.served request reply) fun answer q hs => ?_).bind (fun _ q hq => ?_)
    fun e q hq => absurd hq.1 (by simp)
  · cases hs with
    | transmit ha => exact ⟨rfl, _, ha, rfl⟩
  obtain ⟨-, reply, ha, rfl⟩ := hq
  refine Always.mono ?_ fun r q hr => ⟨reply, ha, hr⟩
  rw [← Peer.stream_served p request reply]
  generalize p.served request reply = p
  have hfield : Always (Peer.Step M) (Exchange.collect Frame.sizeWidth) p (Collected M 4 [] p) :=
    Always.collect
  refine hfield.bind (fun field q hq => ?_) fun e q hq => ?_
  · cases hq with
    | all hl =>
      have hout : outcome capacity p.stream =
          if capacity < LittleEndian.decode (p.stream.take 4) then _ else _ :=
        if_neg (Nat.not_lt.2 hl)
      rw [List.nil_append, hout]
      generalize hsize : LittleEndian.decode (p.stream.take 4) = size
      show Always _ (have size := LittleEndian.decode (p.stream.take 4); _) _ _
      rw [hsize]
      refine .relies (.refuse (fun hc => .inl ⟨4, if_pos hc, rfl⟩) fun hc => ?_)
      rw [if_neg hc]
      refine .refuse (fun hs => .inl ⟨4, if_pos hs, rfl⟩) fun (hs : ¬ size < 7) => ?_
      rw [if_neg hs]
      have hs : 4 + (size - 4) = size := by omega
      have hlen : (p.skip 4).stream.length = p.stream.length - 4 := List.length_drop
      -- The bytes behind the size field are collected in their turn.
      have hrest : Always (Peer.Step M) (Exchange.collect (size - Frame.sizeWidth)) (p.skip 4)
        (Collected M (size - 4) [] (p.skip 4)) := Always.collect
      refine hrest.bind (fun rest q hq => ?_) fun e q hq => ?_
      · cases hq with
        | all hr =>
          have htake :
              p.stream.take 4 ++ (p.skip 4).stream.take (size - 4) = p.stream.take size := by
            rw [Peer.stream_skip, ← List.take_add, hs]
          rw [List.nil_append, Peer.skip_skip, hs]
          refine .pure (.inl ⟨size, ?_, rfl⟩)
          rw [if_neg (by omega), htake]
      · cases hq with
        | ended he hr =>
          rw [Peer.skip_skip, hlen, Nat.add_sub_cancel' hl]
          exact .inl ⟨_, if_pos (by omega), rfl⟩
        | stalled k hs hk =>
          rw [Peer.skip_skip]
          exact .inr ⟨hs, rfl, _, rfl⟩
  · cases hq with
    | ended he hl => exact .inl ⟨p.stream.length, if_pos hl, rfl⟩
    | stalled k hs hk => exact .inr ⟨hs, rfl, k, rfl⟩

end Exchange

/-- A server that has but one reply, at the other end of a stream that ends
behind it. -/
def Manners.replying (reply : Bytes) : Manners where
  answers _ _ r := r = reply
  ends := True
  stalls := False
  answers_total _ _ := ⟨reply, rfl⟩
  ends_or_stalls := .inl trivial

namespace Exchange

/-- Without a time limit, an exchange comes to an end, and both its result and
the bytes that it leaves unread are decided by the stream that it finds after
its request and by the capacity. It does not matter in which pieces the bytes
arrive. -/
theorem reassembly (request : Bytes) (capacity : Nat) (p : Peer) (reply : Bytes) :
    (∃ r q, (exchange request capacity none).run.Runs (Peer.Step (.replying reply)) p r q) ∧
    ∀ r q, (exchange request capacity none).run.Runs (Peer.Step (.replying reply)) p r q →
      ∃ n, outcome capacity (p.stream ++ reply) = (r, n) ∧
        q.stream = (p.stream ++ reply).drop n ∧ q.log = (request, reply) :: p.log ∧
        (∀ fault, r = .error (.transport fault) → fault.kind = .unexpectedEnd) ∧
        (∀ fault, r = .error (.decode fault) → fault.kind = .invalidData) := by
  refine ⟨Peer.runs_total _ _ p, fun r q h => ?_⟩
  obtain ⟨reply', rfl, ⟨n, ho, rfl⟩ | ⟨hs, -⟩⟩ := Always.exchange r q h
  · exact ⟨n, ho, rfl, rfl, kind_of_outcome ho⟩
  · exact absurd hs id

end Exchange

end NineP
