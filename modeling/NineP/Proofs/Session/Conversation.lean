import NineP.Proofs.Session.Heard

/-!
# Conversations with a prompt server

Several requests, one after the other, and what is said in the course of them
(`Session.Talked`). An operation fails only if the server has reported an error,
as long as no reply of the right kind is refused:

* `Session.Talked.trans`: one conversation after another is one conversation;
* `Session.Operation.talked`: an operation is a conversation of one request, and
  what it gives out is a reply that the server may give;
* `Session.asksWithin_request`: no request asks for more bytes than fit a message
  behind their framing.
-/

namespace NineP

/-- Whether a request asks for at most `n` bytes. -/
def Body.AsksWithin (n : Nat) : Body → Prop
  | .tread _ _ count | .treaddir _ _ count => count.toNat ≤ n
  | _ => True

namespace Session

/-- What has been said from one moment to another, and what came of it. Nothing is
left on the stream, every request asked for what fits a message, and there is a
failure only if the server has reported an error. -/
structure Talked (msize : UInt32) (p : Peer) (r : Except Error α) (s : Session) (q : Peer) :
    Prop where
  settled : Settled msize s q
  said : ∃ said, Peer.said q.log = said ++ Peer.said p.log ∧
    (∀ request answer, (request, answer) ∈ said → request.AsksWithin (msize.toNat - 24)) ∧
    ∀ e, r = .error e → ∃ request ecode, (request, .rlerror ecode) ∈ said

namespace Talked

variable {msize : UInt32} {s t : Session} {p q q' : Peer}

/-- Nothing has been said. -/
theorem refl {a : α} (h : Settled msize s p) : Talked msize p (.ok a : Except Error α) s p where
  settled := h
  said := ⟨[], rfl, fun _ _ hx => absurd hx List.not_mem_nil, fun _ he => by cases he⟩

/-- One request has been answered, and it failed only by an error report. -/
theorem of_heard {r : Except Error α} {request answer : Body} (hs : Settled msize s p)
    (h : Heard msize p request answer q) (ha : request.AsksWithin (msize.toNat - 24))
    (hr : ∀ e, r = .error e → answer.type = .rlerror) : Talked msize p r s q where
  settled := hs.heard h
  said := by
    refine ⟨[(request, answer)], h.said, fun request' answer' hx => ?_, fun e he => ?_⟩
    · obtain ⟨rfl, rfl⟩ := Prod.mk.inj (List.mem_singleton.1 hx)
      exact ha
    · have htype := hr e he
      cases answer with
      | rlerror ecode => exact ⟨request, ecode, List.mem_singleton.2 rfl⟩
      | _ => cases htype

/-- A fid has been given back, whatever the server has said to it. -/
theorem returned {fid : UInt32} {answer : Body} (hs : Settled msize s p)
    (h : Heard msize p (.tclunk fid) answer q) :
    Talked msize p (.ok () : Except Error Unit) s q :=
  of_heard hs h trivial fun e he => by cases he

/-- Two conversations make one. That fails only if one of the two has. -/
theorem trans {r : Except Error α} {r' : Except Error β} {r'' : Except Error γ}
    (h : Talked msize p r s q) (h' : Talked msize q r' t q')
    (hr : ∀ e, r'' = .error e → (∃ e, r = .error e) ∨ ∃ e, r' = .error e) :
    Talked msize p r'' t q' where
  settled := h'.settled
  said := by
    obtain ⟨said, hsaid, hasks, hfails⟩ := h.said
    obtain ⟨said', hsaid', hasks', hfails'⟩ := h'.said
    refine ⟨said' ++ said, ?_, fun request answer hx => ?_, fun e he => ?_⟩
    · rw [hsaid', hsaid, List.append_assoc]
    · rcases List.mem_append.1 hx with hx | hx
      · exact hasks' request answer hx
      · exact hasks request answer hx
    · rcases hr e he with ⟨e, he⟩ | ⟨e, he⟩
      · obtain ⟨request, ecode, hx⟩ := hfails e he
        exact ⟨request, ecode, List.mem_append_right _ hx⟩
      · obtain ⟨request, ecode, hx⟩ := hfails' e he
        exact ⟨request, ecode, List.mem_append_left _ hx⟩

/-- What comes after a conversation decides whether the whole fails. -/
theorem after {a : α} {r : Except Error β} (h' : Talked msize q r t q')
    (h : Talked msize p (.ok a : Except Error α) s q) : Talked msize p r t q' :=
  h.trans h' fun e he => .inr ⟨e, he⟩

/-- A result can always be given. -/
theorem ok {r : Except Error α} (h : Talked msize p r s q) (b : β) :
    Talked msize p (.ok b : Except Error β) s q where
  settled := h.settled
  said := by
    obtain ⟨said, hsaid, hasks, -⟩ := h.said
    exact ⟨said, hsaid, hasks, fun e he => by cases he⟩

/-- Of a failure only that there is one counts. -/
theorem error {e : Error} (h : Talked msize p (.error e : Except Error α) s q) (e' : Error) :
    Talked msize p (.error e' : Except Error β) s q where
  settled := h.settled
  said := by
    obtain ⟨said, hsaid, hasks, hfails⟩ := h.said
    exact ⟨said, hsaid, hasks, fun _ _ => hfails e rfl⟩

end Talked

/-! ## Operations -/

theorem toNat_min_le (a b : UInt32) : (min a b).toNat ≤ b.toNat := by
  show (if a ≤ b then a else b).toNat ≤ b.toNat
  split
  · rename_i h
    exact UInt32.le_iff_toNat_le.1 h
  · exact Nat.le_refl _

variable {msize : UInt32} {s : Session} {p : Peer} {expected : MessageType}

/-- The framing of a read can be taken off every message size. -/
theorem toNat_readCeiling (h : minMsize ≤ s.msize) : s.readCeiling.toNat = s.msize.toNat - 24 := by
  have hleast : 256 ≤ s.msize.toNat := UInt32.le_iff_toNat_le.1 h
  have hle : readOverhead ≤ s.msize := UInt32.le_iff_toNat_le.2 (Nat.le_trans (by decide) hleast)
  rw [readCeiling, UInt32.toNat_sub_of_le _ _ hle]
  rfl

theorem Settled.toNat_readCeiling (h : Settled msize s p) :
    s.readCeiling.toNat = msize.toNat - 24 := by
  rw [Session.toNat_readCeiling (h.agreed ▸ h.least), h.agreed]

/-- No request asks for more than fits a message. -/
theorem asksWithin_request (h : Settled msize s p) (op : Operation) :
    (op.request s).known.AsksWithin (msize.toNat - 24) := by
  cases op with
  | read fid offset count =>
    rw [← h.toNat_readCeiling]
    exact toNat_min_le count s.readCeiling
  | readdir fid cookie count =>
    rw [← h.toNat_readCeiling]
    exact toNat_min_le count s.readCeiling
  | _ => exact trivial

/-- An operation that refuses no reply of the right kind: it fails by an error
report only, and what it gives out is such a reply. -/
theorem Operation.talked (replies : Replies) (op : Operation) (x : Client α) {f : α → Body}
    (hx : op.perform = f <$> x) (hs : Settled msize s p) (hf : op.Fits s)
    (hr : (op.request s).type.response? = some expected)
    (hjudge : ∀ answer, replies.allowed (Peer.said p.log) (op.request s).known answer →
      answer.type = expected → op.judge s expected answer = .ok answer) :
    x.Always (Peer.Step (.prompt msize replies)) s p fun r t q =>
      t = s ∧ Talked msize p r s q ∧ ∀ a, r = .ok a →
        Heard msize p (op.request s).known (f a) q ∧
          replies.allowed (Peer.said p.log) (op.request s).known (f a) := by
  have hop := Operation.heard replies op hs hf hr
  rw [hx] at hop
  refine hop.of_map.mono fun r t q ⟨ht, answer, hheard, hallowed, htype, hresult⟩ => ?_
  have hasks := asksWithin_request hs op
  refine ⟨ht, ?_⟩
  rcases htype with htype | htype
  · rw [hjudge answer hallowed htype] at hresult
    cases r with
    | error e => cases hresult
    | ok a =>
      obtain rfl := Except.ok.inj hresult
      refine ⟨.of_heard hs hheard hasks (fun e he => by cases he), fun a' ha => ?_⟩
      obtain rfl := Except.ok.inj ha
      exact ⟨hheard, hallowed⟩
  · refine ⟨.of_heard hs hheard hasks fun _ _ => htype, fun a ha => ?_⟩
    subst ha
    cases answer with
    | rlerror ecode =>
      rw [judge_rlerror] at hresult
      cases hresult
    | _ => cases htype

end Session

end NineP
