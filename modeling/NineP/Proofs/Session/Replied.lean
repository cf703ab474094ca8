import NineP.Proofs.Handle.Opening
import NineP.Proofs.Session.Record

/-!
# Results of operations with a prompt server

An operation may be refused before it is sent, and its reply may be one that it does not
take. If it has a result all the same, then the server has given a reply that it may give,
the result is what that says, and nothing is left of it:

* `Session.Query.always_replied`: what a result tells;
* `Session.Query.always_settled`: so that a session stays settled;
* `Client.Fails`, `Client.Settles`: operations that have no result, and those whose result
  leaves the session settled, with a rule for each way to put them together.
-/

namespace NineP

theorem Session.toNat_max (a b : UInt32) : (max a b).toNat = max a.toNat b.toNat := by
  show (if a ≤ b then b else a).toNat = max a.toNat b.toNat
  split
  · rename_i h
    exact (Nat.max_eq_right (UInt32.le_iff_toNat_le.1 h)).symm
  · rename_i h
    have hlt := Nat.lt_of_not_le fun hle => h (UInt32.le_iff_toNat_le.2 hle)
    exact (Nat.max_eq_left (Nat.le_of_lt hlt)).symm

namespace Session.Query

variable {α : Type} {msize : UInt32} {replies : Replies} {s : Session} {op : Query α} {p : Peer}

/-- What the result of an operation tells: a reply that the server may give has been heard,
and it reads as this result. -/
structure Replied (msize : UInt32) (replies : Replies) (s : Session) (op : Query α) (p : Peer)
    (a : α) (answer : Body) (q : Peer) : Prop where
  sent : ∃ request, op.sends s = .ok request
  heard : Heard (max minMsize msize) p (op.body s).known answer q
  allowed : replies.allowed (Peer.said p.log) (op.body s).known answer
  reading : op.reading s answer = some (.ok a)

/-- An operation that has a result has heard a reply that says it. -/
theorem always_replied (hp : p.stream = []) (hc : (op.body s).CountsHold)
    (hl : op.expected ≠ .rreadlink) :
    op.perform.Always (Peer.Step (.prompt msize replies)) s p fun r t q =>
      t = op.leaves s r ∧ ∀ a, r = .ok a → ∃ answer, Replied msize replies s op p a answer q := by
  refine Query.always (fun e he => ⟨rfl, fun a ha => by cases ha⟩) fun request hsend => ?_
  refine Exchange.Always.exchange.mono fun r q hq => ⟨rfl, fun a ha => ?_⟩
  obtain ⟨reply, hanswers, ⟨n, hout, rfl⟩ | ⟨hstalls, -⟩⟩ := hq
  · have hf := (sends_eq_ok.1 hsend).2
    have hd := decode_of_requestFrame hf hc (op.payloadFits_body s)
    obtain ⟨answer, hreply, -, hlen, hallowed⟩ :=
      hanswers _ op.expected hd (by rw [Body.type_known]; exact op.response_body s)
    obtain ⟨hn, hfield, -, -, -⟩ := Frame.header_of_decode hreply
    obtain ⟨hsize, htexts⟩ := Frame.size_of_decode hreply
    rw [hp, List.nil_append, ← List.append_nil reply] at hout
    by_cases hroom : reply.length ≤ (op.capacity s).toNat
    · rw [Exchange.outcome_frame hn hfield hroom] at hout
      obtain ⟨rfl, rfl⟩ := Prod.mk.inj hout
      obtain ⟨r, hr⟩ := op.exists_verdict s reply
      rw [result_of_verdict hr] at ha
      obtain ⟨m, hm, -, hreading⟩ := (verdict_eq_ok hl).1 (ha ▸ hr)
      obtain rfl := Except.ok.inj (hreply.symm.trans hm)
      refine ⟨answer, ⟨request, hsend⟩, ⟨?_, ?_, ?_, htexts⟩, hallowed, hreading⟩
      · rw [Peer.stream_skip, Peer.stream_served, hp, List.nil_append, List.drop_length]
      · rw [Peer.log_skip, Peer.log_served, Peer.said_cons hd hreply]
      · have hwhole : 4 + (3 + answer.size) = reply.length := hsize
        rw [toNat_max]
        omega
    · rw [Exchange.outcome_frame_of_lt hn hfield (Nat.not_le.1 hroom)] at hout
      obtain ⟨rfl, -⟩ := Prod.mk.inj hout
      cases ha
  · exact absurd hstalls id

/-- A settled session stays so. -/
theorem always_settled (hs : Settled msize s p) (hc : (op.body s).CountsHold)
    (hl : op.expected ≠ .rreadlink) (hn : op.expected ≠ .rversion) :
    op.perform.Always (Peer.Step (.prompt msize replies)) s p fun r t q =>
      t = op.leaves s r ∧ ∀ a, r = .ok a → Settled msize t q ∧ ∃ answer,
        Heard msize p (op.body s).known answer q ∧
        replies.allowed (Peer.said p.log) (op.body s).known answer ∧
        op.reading s answer = some (.ok a) := by
  refine (always_replied hs.stream hc hl).mono fun r t q ⟨ht, hok⟩ => ⟨ht, fun a ha => ?_⟩
  obtain ⟨answer, hreplied⟩ := hok a ha
  have hmax : max minMsize msize = msize := if_pos hs.least
  have hheard := hreplied.heard
  rw [hmax] at hheard
  have hkept : (op.leaves s r).msize = s.msize := by
    cases op with
    | negotiate => exact absurd rfl hn
    | attach => rfl
    | _ => cases r <;> rfl
  refine ⟨⟨?_, hs.least, hheard.stream⟩, answer, hheard, hreplied.allowed, hreplied.reading⟩
  rw [ht, hkept, hs.agreed]

end Session.Query

/-! ## Operations that leave a session settled -/

namespace Client

open Session (Settled)

/-- An operation that has no result. -/
def Fails (M : Manners) (x : Client α) : Prop :=
  ∀ s p, x.Always (Peer.Step M) s p fun r _ _ => ∀ a, r ≠ .ok a

theorem Fails.throw {M : Manners} (e : Error) : Fails M (throw e : Client α) :=
  fun _ _ => .throw fun _ h => by cases h

/-- What comes before a failure does not matter. -/
theorem Fails.bind {M : Manners} (x : Client α) {f : α → Client β} (hf : ∀ a, (f a).Fails M) :
    Fails M (x >>= f) := by
  intro s p
  have hany : x.Always (Peer.Step M) s p fun _ _ _ => True := fun _ _ _ => trivial
  exact hany.bind (fun a t q _ => hf a t q) fun _ _ _ _ _ h => by cases h

/-- Of a result that there is not, anything can be said. -/
theorem Fails.always {M : Manners} {x : Client α} {Q : α → Session → Peer → Prop} {s : Session}
    {p : Peer} (h : x.Fails M) :
    x.Always (Peer.Step M) s p fun r t q => ∀ a, r = .ok a → Q a t q :=
  (h s p).mono fun _ _ _ hr a ha => absurd ha (hr a)

/-- An operation whose result, if it has one, is as `P` has it and leaves the session settled. -/
def Settles (msize : UInt32) (replies : Replies) (x : Client α) (P : α → Prop) : Prop :=
  ∀ s p, Settled msize s p → x.Always (Peer.Step (.prompt msize replies)) s p fun r t q =>
    ∀ a, r = .ok a → P a ∧ Settled msize t q

namespace Settles

variable {msize : UInt32} {replies : Replies} {x : Client α} {P : α → Prop} {Q : β → Prop}

theorem pure {a : α} (h : P a) : Settles msize replies (Pure.pure a) P :=
  fun _ _ hs => .pure fun _ ha => Except.ok.inj ha ▸ ⟨h, hs⟩

theorem fails (h : x.Fails (.prompt msize replies)) : Settles msize replies x P :=
  fun _ _ _ => h.always

theorem bind {f : α → Client β} (hx : Settles msize replies x P)
    (hf : ∀ a, P a → Settles msize replies (f a) Q) : Settles msize replies (x >>= f) Q :=
  fun s p hs => (hx s p hs).bind (fun a t q h => hf a (h a rfl).1 t q (h a rfl).2)
    fun _ _ _ _ _ hb => by cases hb

/-- An operation that is met with failure goes on to fail. -/
theorem attempt_bind {f : Except Error α → Client β} (hx : Settles msize replies x P)
    (hok : ∀ a, P a → Settles msize replies (f (.ok a)) Q)
    (herr : ∀ e, (f (.error e)).Fails (.prompt msize replies)) :
    Settles msize replies (attempt x >>= f) Q := by
  refine fun s p hs => (hx s p hs).attempt.bind_of_yields fun r t q h => ?_
  cases r with
  | ok a => exact hok a (h a rfl).1 t q (h a rfl).2
  | error e => exact (herr e).always

theorem freshFid : Settles msize replies freshFid fun _ => True :=
  fun s _ hs => Dialogue.Always.done fun _ _ => ⟨trivial, hs.counted s.fids.take.2⟩

theorem query {op : Session.Query α} (hc : ∀ s, (op.body s).CountsHold)
    (hl : op.expected ≠ .rreadlink) (hn : op.expected ≠ .rversion) :
    Settles msize replies op.perform fun _ => True :=
  fun s _ hs => (Session.Query.always_settled hs (hc s) hl hn).mono fun _ _ _ h a ha =>
    ⟨trivial, (h.2 a ha).1⟩

theorem release (fid : UInt32) : Settles msize replies (Session.release fid) fun _ => True :=
  fun _ _ hs => (Client.Always.returned hs fid).mono fun _ _ _ ⟨_, _, ht, _, hheard, _⟩ _ _ =>
    ⟨trivial, ht ▸ hs.heard hheard⟩

end Settles

end Client

end NineP
