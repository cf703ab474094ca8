import NineP.Proofs.Session.Verdict

/-!
# Where responses begin on the stream

An operation that finds nothing on the stream but the reply to its own request
is decided by that reply. A reply that fits is taken off whole, so that the next
operation finds the stream empty again. Of one that does not fit only the size
is taken off, and what the next operation takes for a response begins inside it:

* `Session.Query.Alone`: what comes of an operation that finds an empty stream;
* `Session.Course.aligned`: the stream is empty before every operation until a
  reply does not fit;
* `Session.aligned_until_oversized`: up to then, every operation is decided by
  the reply to its own request;
* `Session.misaligned_after_oversized`: not so afterwards.
-/

namespace NineP

/-- A server that answers every request with one frame, of whatever length and
contents, as long as its size is its length. -/
def Manners.framing : Manners where
  answers _ _ reply :=
    headerSize ≤ reply.length ∧ LittleEndian.decode (reply.take 4) = reply.length
  ends := True
  stalls := False
  answers_total _ _ := ⟨[7, 0, 0, 0, 121, 1, 0], by decide, rfl⟩
  ends_or_stalls := .inl trivial

namespace Session

namespace Query

variable {α : Type}

/-- What may come of an operation, from nothing on the stream, with a server that
answers with whole frames. -/
inductive Alone (s : Session) (op : Query α) (p : Peer) : Except Error α → Peer → Prop where
  | unsent {e : Error} : op.sends s = .error e → Alone s op p (.error e) p
  | fitting {request reply : Bytes} {r : Except Error α} : op.sends s = .ok request →
    reply.length ≤ (op.capacity s).toNat → op.verdict s reply = some r →
    Alone s op p r { stream := [], log := (request, reply) :: p.log }
  | oversized {request reply : Bytes} : op.sends s = .ok request →
    (op.capacity s).toNat < reply.length → headerSize ≤ reply.length →
    Alone s op p (.error (.bufferTooSmall reply.length (op.capacity s).toNat))
      { stream := reply.drop 4, log := (request, reply) :: p.log }

theorem always_alone {s : Session} {op : Query α} {p : Peer} (hp : p.stream = []) :
    Client.Always (Peer.Step .framing) op.perform s p fun r t q =>
      t = op.leaves s r ∧ op.Alone s p r q := by
  refine Query.always (fun e he => ⟨rfl, .unsent he⟩) fun request hf => ?_
  refine Exchange.Always.exchange.mono fun response q h => ?_
  obtain ⟨reply, ⟨hleast, hsize⟩, ⟨n, ho, rfl⟩ | ⟨hstalls, -⟩⟩ := h
  · rw [hp, List.nil_append, ← List.append_nil reply] at ho
    by_cases hmost : reply.length ≤ (op.capacity s).toNat
    · rw [Exchange.outcome_frame hleast hsize hmost] at ho
      obtain ⟨rfl, rfl⟩ := Prod.mk.inj ho
      obtain ⟨r, hr⟩ := op.exists_verdict s reply
      rw [result_of_verdict hr, Peer.skip, Peer.stream_served, hp, List.nil_append,
        List.drop_length]
      exact ⟨rfl, .fitting hf hmost hr⟩
    · have hlt := Nat.lt_of_not_le hmost
      rw [Exchange.outcome_frame_of_lt hleast hsize hlt] at ho
      obtain ⟨rfl, rfl⟩ := Prod.mk.inj ho
      rw [Peer.skip, Peer.stream_served, hp, List.nil_append]
      exact ⟨rfl, .oversized hf hlt hleast⟩
  · exact absurd hstalls id

end Query

/-- An operation in a run: the longest response that it receives, and the peer
before and after it. -/
structure Leg where
  capacity : UInt32
  before : Peer
  after : Peer

/-- The reply to the operation's request, if it sent one, is no longer than the
longest response. -/
def Leg.Fits (l : Leg) : Prop :=
  ∀ request reply, l.after.log = (request, reply) :: l.before.log →
    reply.length ≤ l.capacity.toNat

/-- The operations of a run, the last first, that begins in the session `s` with
nothing on the stream, with the session and the peer after them. -/
inductive Course (M : Manners) (s : Session) : List Leg → Session → Peer → Prop where
  | start {p : Peer} : p.stream = [] → Course M s [] s p
  | next {α : Type} {op : Query α} {legs : List Leg} {t u : Session} {p q : Peer}
    {r : Except Error α} : Course M s legs t p →
    (op.perform.runIn t).Runs (Peer.Step M) p (r, u) q →
    Course M s (⟨op.capacity t, p, q⟩ :: legs) u q

/-- An operation begins where a reply begins, until a reply does not fit. -/
theorem Course.aligned {s t : Session} {legs : List Leg} {p : Peer}
    (h : Course .framing s legs t p) (hfits : ∀ l ∈ legs, l.Fits) : p.stream = [] := by
  induction h with
  | start hp => exact hp
  | next h hrun ih =>
    have hp := ih fun l hl => hfits l (List.mem_cons_of_mem _ hl)
    have hlast := hfits _ List.mem_cons_self
    obtain ⟨-, halone⟩ := Query.always_alone hp _ _ hrun
    cases halone with
    | unsent => exact hp
    | fitting => rfl
    | oversized hf hlt => exact absurd (hlast _ _ rfl) (Nat.not_le_of_lt hlt)

/-- As long as every reply fits, an operation finds nothing on the stream but the
reply to its own request. If that fits, then it is taken off whole, and it alone
decides the result. If not, then the operation fails and all of the reply but its
size is left on the stream. -/
theorem aligned_until_oversized {α : Type} {s t u : Session} {legs : List Leg} {p q : Peer}
    {op : Query α} {r : Except Error α} (h : Course .framing s legs t p)
    (hfits : ∀ l ∈ legs, l.Fits) (hrun : (op.perform.runIn t).Runs (Peer.Step .framing) p (r, u) q) :
    p.stream = [] ∧ u = op.leaves t r ∧
      ((∃ e, op.sends t = .error e ∧ r = .error e ∧ q = p) ∨
        ∃ request reply, op.sends t = .ok request ∧ q.log = (request, reply) :: p.log ∧
          (reply.length ≤ (op.capacity t).toNat → op.verdict t reply = some r ∧ q.stream = []) ∧
          ((op.capacity t).toNat < reply.length →
            r = .error (.bufferTooSmall reply.length (op.capacity t).toNat) ∧
            q.stream = reply.drop 4 ∧ q.stream ≠ [])) := by
  have hp := h.aligned hfits
  obtain ⟨ht, halone⟩ := Query.always_alone hp _ _ hrun
  refine ⟨hp, ht, ?_⟩
  cases halone with
  | @unsent e he => exact .inl ⟨e, he, rfl, rfl⟩
  | @fitting request reply _ hf hmost hr =>
    refine .inr ⟨request, reply, hf, rfl, fun _ => ⟨hr, rfl⟩, fun hlt => ?_⟩
    exact absurd hmost (Nat.not_le_of_lt hlt)
  | @oversized request reply hf hlt hleast =>
    refine .inr ⟨request, reply, hf, rfl, fun hmost => ?_, fun _ => ⟨rfl, rfl, ?_⟩⟩
    · exact absurd hmost (Nat.not_le_of_lt hlt)
    · have hlen : (reply.drop 4).length = reply.length - 4 := List.length_drop
      have hseven : 7 ≤ reply.length := hleast
      show reply.drop 4 ≠ []
      exact List.ne_nil_of_length_pos (by omega)

/-! ## A reply that is one byte too long -/

/-- A session with the smallest message size. -/
def smallest : Session := { msize := minMsize, version := protocolVersion }

/-- A frame of 257 bytes. Behind its size it looks like the response to a
clunk. -/
def overlong : Bytes := [1, 1, 0, 0] ++ ([7, 0, 0, 0, 121, 1, 0] ++ List.replicate 246 0)

theorem length_overlong : overlong.length = 257 := by
  rw [overlong, List.length_append, List.length_append, List.length_replicate]
  rfl

theorem framing_overlong (log : List (Bytes × Bytes)) (request : Bytes) :
    Manners.framing.answers log request overlong := by
  refine ⟨?_, ?_⟩
  · rw [length_overlong]
    decide
  · rw [length_overlong]
    rfl

/-- The response to a clunk. -/
def clunked : Bytes := [7, 0, 0, 0, 121, 1, 0]

/-- The report that there is no such object. -/
def missing : Bytes := [11, 0, 0, 0, 7, 1, 0, 2, 0, 0, 0]

/-- The request to clunk a fid. -/
def clunkOf (fid : UInt8) : Bytes := [11, 0, 0, 0, 120, 1, 0, fid, 0, 0, 0]

/-- The peer after a clunk of fid 1 that it granted. -/
def afterClunked : Peer := { log := [(clunkOf 1, clunked)] }

/-- The peer `p` after a clunk of fid 2 whose reply was too long. -/
def afterOverlong (p : Peer) : Peer :=
  { stream := overlong.drop 4, log := (clunkOf 2, overlong) :: p.log }

theorem runs_afterClunked : ((Query.clunk 1).perform.runIn smallest).Runs (Peer.Step .framing)
    {} (.ok (), smallest) afterClunked := by
  have ha : Manners.framing.answers [] (clunkOf 1) clunked := ⟨by decide, rfl⟩
  refine .ask (.transmit ha) ?_
  refine .ask (.receive 4 ?_ ?_ ?_) (.ask (.receive 3 ?_ ?_ ?_) (.done _ _)) <;> decide

theorem runs_afterOverlong {p : Peer} (hp : p.stream = []) :
    ((Query.clunk 2).perform.runIn smallest).Runs (Peer.Step .framing)
      p (.error (.bufferTooSmall 257 256), smallest) (afterOverlong p) := by
  have hlen : 4 ≤ ([] ++ overlong).length := by
    rw [List.nil_append, length_overlong]
    decide
  obtain ⟨stream, log⟩ := p
  obtain rfl : stream = [] := hp
  exact .ask (.transmit (framing_overlong _ _)) (.ask (.receive 4 (by decide) (by decide) hlen) (.done _ _))

theorem course_afterClunked :
    Course .framing smallest [⟨256, {}, afterClunked⟩] smallest afterClunked :=
  .next (.start rfl) runs_afterClunked

/-- A reply that fits is followed by one that does not: the operation fails, and
all of its reply but the size is left on the stream. -/
theorem aligned_until_overlong :
    (∀ l ∈ [Leg.mk 256 {} afterClunked], l.Fits) ∧ afterClunked.stream = [] ∧
      (afterOverlong afterClunked).stream = overlong.drop 4 ∧
      (afterOverlong afterClunked).stream ≠ [] := by
  have hfits : ∀ l ∈ [Leg.mk 256 {} afterClunked], l.Fits := by
    intro l hl
    obtain rfl := List.mem_singleton.1 hl
    rintro _ _ ⟨⟩
    decide
  obtain ⟨hp, -, ⟨e, -, -, hq⟩ | ⟨request, reply, -, hlog, -, hlong⟩⟩ :=
    aligned_until_oversized course_afterClunked hfits (runs_afterOverlong rfl)
  · exact absurd (congrArg (fun p : Peer => p.log.length) hq) (by decide)
  · obtain ⟨⟨rfl, rfl⟩, -⟩ := List.cons.inj hlog
    have hlt : ((Query.clunk 2).capacity smallest).toNat < overlong.length := by
      rw [length_overlong]
      decide
    obtain ⟨-, hs, hne⟩ := hlong hlt
    exact ⟨hfits, hp, hs, hne⟩

theorem course_afterOverlong :
    Course .framing smallest [⟨256, {}, afterOverlong {}⟩] smallest (afterOverlong {}) :=
  .next (.start rfl) (runs_afterOverlong rfl)

/-- The peer after a clunk of fid 1 for which the rest of the overlong reply is
taken. -/
def afterMistaken : Peer := ((afterOverlong {}).served (clunkOf 1) missing).skip 7

theorem runs_afterMistaken : ((Query.clunk 1).perform.runIn smallest).Runs (Peer.Step .framing)
    (afterOverlong {}) (.ok (), smallest) afterMistaken := by
  have ha : Manners.framing.answers (afterOverlong {}).log (clunkOf 1) missing := ⟨by decide, rfl⟩
  have hlen : (overlong.drop 4 ++ missing).length = 264 := by
    rw [List.length_append, List.length_drop, length_overlong]
    rfl
  have hsize : 4 ≤ ((afterOverlong {}).served (clunkOf 1) missing).stream.length := by
    show 4 ≤ (overlong.drop 4 ++ missing).length
    omega
  have hrest : 3 ≤ (((afterOverlong {}).served (clunkOf 1) missing).skip 4).stream.length := by
    show 3 ≤ ((overlong.drop 4 ++ missing).drop 4).length
    rw [List.length_drop]
    omega
  exact .ask (.transmit ha) (.ask (.receive 4 (by decide) (by decide) hsize)
    (.ask (.receive 3 (by decide) (by decide) hrest) (.done _ _)))

/-- An oversized reply disturbs the operation that comes next: the server reports
that there is no such object, and the bytes left of the oversized reply are taken
for the response. -/
theorem misaligned_after_oversized :
    ¬ ∀ (s t u : Session) (legs : List Leg) (p q : Peer) (α : Type) (op : Query α)
      (r : Except Error α) (request reply : Bytes),
      Course .framing s legs t p →
      (op.perform.runIn t).Runs (Peer.Step .framing) p (r, u) q →
      q.log = (request, reply) :: p.log → reply.length ≤ (op.capacity t).toNat →
      op.verdict t reply = some r := by
  intro h
  have hverdict := h _ _ _ _ _ _ _ _ _ _ _ course_afterOverlong runs_afterMistaken rfl (by decide)
  cases hverdict

end Session

end NineP
