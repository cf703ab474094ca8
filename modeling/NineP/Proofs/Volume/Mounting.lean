import NineP.Proofs.Volume.Handles
import NineP.Volume

/-!
# Mounting

A handshake and an attach come before all other requests. Once a volume is
mounted the fid of its root is held, and no other; if it cannot be mounted then
no fid is left:

* `Client.Always.negotiate`: after a handshake no fid is held;
* `Exchange.Always.mount`: after a volume is mounted, that of its root is.
-/

namespace NineP

namespace Client.Always

/-- What comes of the first request, a proposal of a message size: the server
sees agreed on the lesser of it and its own. -/
theorem proposed {proposal : UInt32} {s : Session} (hleast : minMsize ≤ proposal) :
    Always (Peer.Step .serving)
      (Session.request noTag (.tversion proposal protocolVersion) proposal) s {} fun r t q =>
        t = s ∧ q.stream = [] ∧ Peer.live q.log = [] ∧ Peer.namings q.log = 0 ∧
          ∀ msize version, r = .ok (.rversion msize version) →
            Peer.agreed q.log = min msize proposal := by
  have hresponse : (Body.tversion proposal protocolVersion).type.response? = some .rversion := rfl
  refine (asked hresponse trivial trivial).mono fun r t q ⟨ht, r', ha, hr⟩ => ⟨ht, ?_⟩
  subst hr
  cases ha with
  | unsent hf hr' hq =>
    subst hr' hq
    exact ⟨rfl, rfl, rfl, fun _ _ h => by cases h⟩
  | @sent request reply hlog hm hreply =>
    have hroom : 256 ≤ proposal.toNat := UInt32.le_iff_toNat_le.1 hleast
    obtain ⟨hstream, ⟨tag, body⟩, ha, hresult⟩ := hreply rfl
      (Nat.max_le.2 ⟨Nat.le_trans (by decide) hroom, Nat.le_refl _⟩)
    refine ⟨hstream, ?_, ?_, fun msize version h => ?_⟩
    · rw [hlog, Peer.live_cons hm ha]
      exact Body.settle_of_ne rfl (fun h => by cases h) ..
    · rw [hlog, Peer.namings_cons hm]
      rfl
    · rcases hresult with ⟨rfl, -⟩ | ⟨-, e, rfl, -⟩
      · have h : Session.bodyOf reply = .ok (.rversion msize version) := h
        rw [Session.bodyOf, ha] at h
        obtain rfl : body = .rversion msize version := Except.ok.inj h
        rw [hlog, Peer.agreed, Peer.messages?_eq_some hm ha]
        rfl
      · cases h

/-- A handshake leaves no fid. If it has a result, then both sides agree on the
message size. -/
theorem negotiate {proposal : UInt32} {timeout : Option UInt64} :
    Always (Peer.Step .serving) (Session.negotiate proposal) { timeout } {} fun r t q =>
      match r with
      | .ok _ => Books [] 0 t q
      | .error _ => Peer.live q.log = [] := by
  rw [Session.negotiate]
  refine .refuse (fun _ => rfl) fun hleast => ?_
  have hleast := UInt32.not_lt.1 hleast
  refine (proposed hleast).bind (fun body t q h => ?_) fun e t q h => h.2.2.1
  obtain ⟨ht, hstream, hlive, hnamings, hagreed⟩ := h
  cases body with
  | rversion msize version =>
    refine .refuse (fun _ => hlive) fun _ => .refuse (fun _ => hlive) fun hmsize => ?_
    have hmsize := UInt32.not_lt.1 hmsize
    have hagreed := hagreed msize version rfl
    refine modify_bind (.pure ?_)
    exact {
      stream := hstream
      msize := hagreed.symm
      least := by
        show minMsize ≤ if msize ≤ proposal then msize else proposal
        by_cases h : msize ≤ proposal
        · rwa [if_pos h]
        · rwa [if_neg h]
      next := by
        rw [hnamings, ht]
        rfl
      live := fun fid => by rw [hlive]
      nodup := List.nodup_nil
      taken := fun fid hf => absurd hf List.not_mem_nil
    }
  | _ => exact .throw hlive

/-- An attach behind a handshake holds its fid. -/
theorem attachVolume {config : Config} :
    Always (Peer.Step .serving) (Volume.attach config) { timeout := config.timeout } {}
      fun r t q =>
        match r with
        | .ok root => Balanced [root.fid] 0 t q
        | .error _ => fidSupply ≤ Peer.namings q.log + unsent r ∨ Peer.live q.log = [] := by
  refine negotiate.bind (fun _ t q hq => ?_) fun e t q hq => .inr hq
  refine (attach (.inr hq)).bind (fun (fid, qid) t q hq => .pure hq) fun e t q hq => ?_
  have hq : Balanced [] (0 + unsent (.error e)) t q := hq
  rcases hq with hq | hq
  · rw [Nat.zero_add] at hq
    exact .inl hq
  · refine .inr (List.eq_nil_iff_forall_not_mem.2 fun fid hf => ?_)
    exact List.not_mem_nil ((hq.live fid).1 hf)

end Client.Always

namespace Exchange.Always

/-- A call that moves no bytes leaves the peer as it is. -/
theorem still {M : Manners} {c : Call} {p : Peer}
    (hc : ∀ answer q, Peer.Step M p c answer q → answer = .done [] ∧ q = p) :
    Always (Peer.Step M) (Exchange.perform c) p fun r q => r = .ok () ∧ q = p :=
  .perform fun answer q h => by
    obtain ⟨rfl, rfl⟩ := hc answer q h
    exact ⟨rfl, rfl⟩

theorem still_bind {M : Manners} {c : Call} {p : Peer} {f : Unit → Exchange α}
    {Q : Except Error α → Peer → Prop}
    (hc : ∀ answer q, Peer.Step M p c answer q → answer = .done [] ∧ q = p)
    (hf : Always (Peer.Step M) (f ()) p Q) :
    Always (Peer.Step M) (Exchange.perform c >>= f) p Q :=
  (still hc).bind (fun _ _ hq => hq.2 ▸ hf) fun _ _ hq => by cases hq.1

/-- A volume that is mounted holds the fid of its root. One that cannot be
mounted leaves no fid. -/
theorem mount (config : Config) :
    Always (Peer.Step .serving) (Volume.mount config) {} fun r p =>
      match r with
      | .ok (v, s) => Balanced [v.root.fid] 0 s p
      | .error _ => fidSupply ≤ Peer.namings p.log + unsent r ∨ Peer.live p.log = [] := by
  rw [Volume.mount]
  cases hv : config.validate with
  | error e => exact lift_bind_error rfl (.inr rfl)
  | ok u =>
    refine lift_bind_ok rfl ?_
    refine still_bind (fun _ _ h => by cases h; exact ⟨rfl, rfl⟩) ?_
    refine still_bind (fun _ _ h => by cases h; exact ⟨rfl, rfl⟩) ?_
    refine dialogue_bind Client.Always.attachVolume fun (attached, session) q hq => ?_
    cases attached with
    | ok root => exact .pure hq
    | error e =>
      have hclose : Always (Peer.Step .serving) (Exchange.perform .close) q _ :=
        still fun _ _ h => by cases h; exact ⟨rfl, rfl⟩
      refine dialogue_bind hclose fun _ q' hq' => .throw ?_
      rw [hq'.2]
      exact hq

end Exchange.Always

end NineP
