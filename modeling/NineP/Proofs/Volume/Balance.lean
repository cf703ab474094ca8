import NineP.Proofs.FidSource.Cycle
import NineP.Proofs.Session.Asked

/-!
# The balance of fids

A client keeps account of the fids that it holds. The account is right if they
are the ones that are live at the server and no fid is handed out twice; it is
kept right by every operation, as long as there are fids to be had:

* `Books`: the account is right;
* `Balanced`: it is right unless the fids have run out;
* `Client.Always.freshFid`: a fresh fid is none of those held;
* `Client.Always.naming`: it is held once a request for it has been granted;
* `Client.Always.quiet`, `Client.Always.clunk`: no other operation establishes a
  fid, and a clunk ends one.
-/

namespace NineP

/-- The number of fids that an operation took for a request that was not sent. -/
def unsent (r : Except Error α) : Nat :=
  match r with
  | .error e => if e.isUnsent then 1 else 0
  | .ok _ => 0

theorem unsent_error {e : Error} (h : e.isUnsent = false) :
    unsent (.error e : Except Error α) = 0 := by
  rw [unsent, h]
  rfl

@[simp] theorem unsent_map (f : α → β) (r : Except Error α) : unsent (f <$> r) = unsent r := by
  cases r <;> rfl

/-- The fids in `held` are those that are live at the server, and none of them
will be handed out again. Of the fids that have been handed out, `idle` were
named by no request. -/
structure Books (held : List UInt32) (idle : Nat) (s : Session) (p : Peer) : Prop where
  stream : p.stream = []
  msize : s.msize = Peer.agreed p.log
  least : minMsize ≤ s.msize
  next : s.fids.next.toNat = Peer.namings p.log + idle + 1
  live : ∀ fid, fid ∈ Peer.live p.log ↔ fid ∈ held
  nodup : held.Nodup
  taken : ∀ fid ∈ held, fid.toNat < s.fids.next.toNat

/-- The books are right, unless the fids have run out. -/
def Balanced (held : List UInt32) (idle : Nat) (s : Session) (p : Peer) : Prop :=
  fidSupply ≤ Peer.namings p.log + idle ∨ Books held idle s p

/-- As `Balanced`, with a fid that has been handed out and not been asked for. -/
def Reserved (held : List UInt32) (idle : Nat) (fid : UInt32) (s : Session) (p : Peer) : Prop :=
  fidSupply ≤ Peer.namings p.log + (idle + 1) ∨
    Books held (idle + 1) s p ∧ fid ∉ held ∧ fid.toNat < s.fids.next.toNat

/-- After a result the fids in `after` are held, and after a failure those in
`held`. -/
def Entered (after : α → List UInt32) (held : List UInt32) (idle : Nat) (r : Except Error α)
    (s : Session) (p : Peer) : Prop :=
  match r with
  | .ok a => Balanced (after a) idle s p
  | .error _ => Balanced held (idle + unsent r) s p

/-- As `Balanced`, after an operation that does not fail before its request is
sent. -/
def Kept (held : List UInt32) (idle : Nat) (r : Except Error α) (s : Session) (p : Peer) : Prop :=
  fidSupply ≤ Peer.namings p.log + idle ∨ Books held idle s p ∧ unsent r = 0

namespace Books

variable {held held' : List UInt32} {idle : Nat} {s : Session} {p q : Peer}

theorem perm (h : Books held idle s p) (hp : held.Perm held') : Books held' idle s p where
  stream := h.stream
  msize := h.msize
  least := h.least
  next := h.next
  live fid := (h.live fid).trans hp.mem_iff
  nodup := hp.nodup_iff.1 h.nodup
  taken fid hf := h.taken fid (hp.mem_iff.2 hf)

/-- There is room for any reply. -/
theorem room (h : Books held idle s p) {body : Body} (hv : body.type ≠ .tversion) :
    max errorReportSize (Peer.replyLimit p.log body).toNat ≤ s.msize.toNat := by
  have hleast : 256 ≤ s.msize.toNat := UInt32.le_iff_toNat_le.1 h.least
  rw [Peer.replyLimit_of_ne hv, ← h.msize]
  exact Nat.max_le.2 ⟨Nat.le_trans (by decide) hleast, Nat.le_refl _⟩

/-- The books after a request and its reply. -/
theorem sent {m : Message} {answer : Message} {request reply : Bytes} {naming : Nat}
    (h : Books held (idle + naming) s p) (hq : q.stream = [])
    (hlog : q.log = (request, reply) :: p.log) (hm : Frame.decode request = .ok m)
    (ha : Frame.decode reply = .ok answer) (hv : m.body.type ≠ .tversion)
    (hn : naming = if m.body.newFid?.isSome then 1 else 0)
    (hlive : ∀ fid, fid ∈ Body.settle (Peer.live p.log) m.body answer.body ↔ fid ∈ held')
    (hd : held'.Nodup) (ht : ∀ fid ∈ held', fid.toNat < s.fids.next.toNat) :
    Books held' idle s q where
  stream := hq
  msize := by rw [hlog, Peer.agreed_cons hm ha hv, h.msize]
  least := h.least
  next := by
    rw [hlog, Peer.namings_cons hm, h.next, ← hn]
    omega
  live fid := by rw [hlog, Peer.live_cons hm ha, hlive]
  nodup := hd
  taken := ht

/-- The books after a request for a fid that is not held, and its reply. -/
theorem named {m : Message} {answer : Message} {request reply : Bytes} {new : UInt32}
    (h : Books held (idle + 1) s p) (hnew : new ∉ held) (hlt : new.toNat < s.fids.next.toNat)
    (hq : q.stream = []) (hlog : q.log = (request, reply) :: p.log)
    (hm : Frame.decode request = .ok m) (ha : Frame.decode reply = .ok answer)
    (hv : m.body.type ≠ .tversion) (hn : m.body.newFid? = some new) :
    Books (if m.body.grants answer.body then new :: held else held) idle s q := by
  refine h.sent hq hlog hm ha hv (by rw [hn]; rfl) (fun fid => ?_) ?_ ?_
  all_goals by_cases hg : m.body.grants answer.body = true
  · rw [Body.settle_of_newFid hn, if_pos hg, if_pos hg, List.mem_cons, List.mem_cons, h.live]
  · rw [Body.settle_of_newFid hn, if_neg hg, if_neg hg, h.live]
  · rw [if_pos hg]
    exact List.nodup_cons.2 ⟨hnew, h.nodup⟩
  · rw [if_neg hg]
    exact h.nodup
  · rw [if_pos hg]
    exact List.forall_mem_cons.2 ⟨hlt, h.taken⟩
  · rw [if_neg hg]
    exact h.taken

end Books

namespace Balanced

variable {held held' : List UInt32} {idle : Nat} {s : Session} {p : Peer}

theorem perm (h : Balanced held idle s p) (hp : held.Perm held') : Balanced held' idle s p :=
  h.imp_right fun h => h.perm hp

/-- No fid is held twice unless the fids have run out. -/
theorem exhausted (h : Balanced held idle s p) (hd : ¬ held.Nodup) :
    fidSupply ≤ Peer.namings p.log + idle :=
  h.resolve_right fun h => hd h.nodup

/-- What is left idle does not count less. -/
theorem add_unsent (h : fidSupply ≤ Peer.namings p.log + idle) (n : Nat) :
    Balanced held (idle + n) s p :=
  .inl (Nat.le_trans h (Nat.add_le_add_left (Nat.le_add_right ..) _))

end Balanced

/-- A failure that is not for want of a request leaves all as it is. -/
theorem Entered.error {after : α → List UInt32} {held : List UInt32} {idle : Nat} {e : Error}
    {s : Session} {p : Peer} (h : Balanced held idle s p) (he : e.isUnsent = false) :
    Entered after held idle (.error e) s p := by
  show Balanced held (idle + unsent (.error e)) s p
  rw [unsent_error he]
  exact h

theorem Entered.balanced {held : List UInt32} {idle : Nat} {r : Except Error α} {s : Session}
    {p : Peer} (h : Entered (fun _ => held) held idle r s p) :
    Balanced held (idle + unsent r) s p := by
  cases r with
  | ok a => exact h
  | error e => exact h

namespace Kept

variable {held : List UInt32} {idle : Nat} {s : Session} {p : Peer} {r : Except Error α}

theorem balanced (h : Kept held idle r s p) : Balanced held idle s p :=
  h.imp_right And.left

theorem entered (h : Kept held idle r s p) : Entered (fun _ => held) held idle r s p := by
  cases r with
  | ok a => exact h.balanced
  | error e =>
    rcases h with h | ⟨h, hu⟩
    · exact Balanced.add_unsent h _
    · show Balanced held (idle + unsent (.error e)) s p
      rw [hu]
      exact .inr h

theorem of_map {f : α → β} (h : Kept held idle (f <$> r) s p) : Kept held idle r s p := by
  rwa [Kept, unsent_map] at h

end Kept

namespace Client.Always

variable {held : List UInt32} {idle : Nat} {s : Session} {p : Peer}

/-- A fresh fid is none of those held, unless the fids have run out. -/
theorem freshFid {step : Peer → Call → Answer → Peer → Prop} (h : Balanced held idle s p) :
    Always step freshFid s p (Yields (Reserved held idle)) := by
  refine Dialogue.Always.done ⟨s.fids.take.1, rfl, ?_⟩
  show Reserved held idle s.fids.take.1 { s with fids := s.fids.take.2 } p
  rcases h with h | h
  · exact .inl (by omega)
  by_cases hs : fidSupply ≤ Peer.namings p.log + (idle + 1)
  · exact .inl hs
  have hnext := h.next
  simp only [fidSupply] at hs
  obtain ⟨hfirst, hsucc⟩ := FidSource.toNat_take_of_lt (s := s.fids) (by omega) (by omega)
  refine .inr ⟨⟨h.stream, h.msize, h.least, ?_, h.live, h.nodup, fun fid hf => ?_⟩,
    fun hf => ?_, ?_⟩
  · show s.fids.take.2.next.toNat = _
    omega
  · have := h.taken fid hf
    show _ < s.fids.take.2.next.toNat
    omega
  · exact Nat.lt_irrefl _ (hfirst ▸ h.taken _ hf)
  · show _ < s.fids.take.2.next.toNat
    rw [hfirst]
    omega

/-- A request for a fid: if it is granted then the fid is held, and if it is not
sent then the fid stays idle. -/
theorem naming {body : Body} {expected : MessageType} {new : UInt32}
    (h : Reserved held idle new s p) (hb : body.newFid? = some new)
    (hr : body.type.response? = some expected) (hc : body.CountsHold) (hp : body.PayloadFits) :
    Always (Peer.Step .serving) (Session.call body) s p
      (Entered (fun answer => if body.grants answer then new :: held else held) held idle) := by
  have hv : body.type ≠ .tversion := by
    intro hv
    cases body with
    | tversion => cases hb
    | _ => cases hv
  refine get_bind ((asked hr hc hp).mono fun r t q ⟨ht, r', ha, hbody⟩ => ?_)
  subst ht
  cases ha with
  | unsent hf hr' hq =>
    subst hr' hq hbody
    have hidle : unsent (.error _ >>= Session.bodyOf) = 1 :=
      if_pos (Session.isUnsent_of_requestFrame hr hf)
    show Balanced held (idle + unsent (.error _ >>= Session.bodyOf)) t q
    rw [hidle]
    exact h.imp_right And.left
  | @sent request reply hlog hm hreply =>
    have hknown : body.known = body := by
      cases body with
      | tattach => rfl
      | twalk => rfl
      | _ => cases hb
    rw [hknown] at hm
    rcases h with h | ⟨h, hnew, hlt⟩
    -- Once the fids have run out there is nothing to show.
    · have hcount : fidSupply ≤ Peer.namings q.log + idle := by
        rw [hlog, Peer.namings_cons hm, hb]
        show fidSupply ≤ Peer.namings p.log + 1 + idle
        omega
      cases r with
      | ok answer => exact .inl hcount
      | error e => exact Balanced.add_unsent hcount _
    · obtain ⟨hstream, answer, ha, hresult⟩ := hreply h.stream (h.room hv)
      have hbooks : Books (if body.grants answer.body then new :: held else held) idle t q :=
        h.named hnew hlt hstream hlog hm ha hv hb
      rcases hresult with ⟨rfl, -⟩ | ⟨htype, e, rfl, he⟩
      · have hbody : r = Session.bodyOf reply := hbody
        rw [Session.bodyOf, ha] at hbody
        subst hbody
        exact .inr hbooks
      · have hbody : r = .error e := hbody
        subst hbody
        rw [Body.grants_rlerror body htype] at hbooks
        show Balanced held (idle + unsent (.error e)) t q
        rw [unsent_error (Error.isUnsent_of_isReceived he)]
        exact .inr hbooks

theorem entered_bind {x : Client α} {f : α → Client β} {after : α → List UInt32}
    {after' : β → List UInt32} {step : Peer → Call → Answer → Peer → Prop}
    (hx : Always step x s p (Entered after held idle))
    (hf : ∀ a t q, Balanced (after a) idle t q → Always step (f a) t q (Entered after' held idle)) :
    Always step (x >>= f) s p (Entered after' held idle) :=
  hx.bind hf fun _ _ _ h => h

/-! ## Operations -/

/-- A walk through at most one name holds the new fid if it has a result, which
is then as long as the names. -/
theorem walk (fid : UInt32) {new : UInt32} (names : List String) (h : Reserved held idle new s p)
    (hn : names.length ≤ 1) :
    Always (Peer.Step .serving) (Session.walk fid new names) s p fun r t q =>
      Entered (fun _ => new :: held) held idle r t q ∧
        ∀ qids, r = .ok qids → qids.length = names.length := by
  have hcall := naming h (show (Body.twalk fid new names).newFid? = some new from rfl) rfl
    (show names.length ≤ 65535 by omega) trivial
  refine hcall.bind (fun answer t q hq => ?_) fun e t q hq => ⟨hq, fun _ h => by cases h⟩
  have other (e : Error) (he : e.isUnsent = false) (hq : Balanced held idle t q) :
      Entered (fun _ => new :: held) held idle (.error e : Except Error (List Qid)) t q ∧
        ∀ qids, (.error e : Except Error (List Qid)) = .ok qids → qids.length = names.length :=
    ⟨.error hq he, fun _ h => by cases h⟩
  cases answer with
  | rwalk qids =>
    have hq : Balanced (if qids.length == names.length then new :: held else held) idle t q := hq
    have hshort (hne : qids.length ≠ names.length) : Balanced held idle t q := by
      rwa [if_neg (by rwa [beq_iff_eq])] at hq
    refine .refuse (fun hs => other _ rfl (hshort (Nat.ne_of_gt hs))) fun hs =>
      .refuse (fun hs' => other _ rfl (hshort (Nat.ne_of_lt hs'))) fun hs' => .pure ?_
    have heq : qids.length = names.length := Nat.le_antisymm (Nat.not_lt.1 hs) (Nat.not_lt.1 hs')
    rw [if_pos (beq_iff_eq.2 heq)] at hq
    exact ⟨hq, fun _ h => Except.ok.inj h ▸ heq⟩
  | _ => exact .throw (other _ rfl hq)

/-- An attach holds its fid if it has a result. -/
theorem attach {uname aname : String} (h : Balanced held idle s p) :
    Always (Peer.Step .serving) (Session.attach uname aname) s p
      (Entered (fun (fid, _) => fid :: held) held idle) := by
  refine (freshFid h).bind_of_yields fun fid t q hq => ?_
  have hcall := naming hq
    (show (Body.tattach fid noFid uname aname).newFid? = some fid from rfl) rfl trivial trivial
  refine entered_bind hcall fun answer t q hq => ?_
  cases answer with
  | rattach qid => exact .pure hq
  | _ => exact .throw (.error hq rfl)

/-- An operation that asks for no fid is always sent, and leaves nothing idle. -/
theorem perform {op : Session.Operation} {held' : List UInt32} (h : Balanced held idle s p)
    (hn : (op.request s).newFid? = none) (hsub : held'.Sublist held)
    (hsettle : Books held idle s p → ∀ reply fid,
      fid ∈ Body.settle (Peer.live p.log) (op.request s).known reply ↔ fid ∈ held') :
    Always (Peer.Step .serving) op.perform s p (Kept held' idle) := by
  refine (op.always_perform).mono fun r t q ⟨ht, r', hr⟩ => ?_
  subst ht
  obtain ⟨expected, hresponse⟩ := op.exists_response t
  obtain ⟨htexts, hsize, hcounts, hknown⟩ := op.short_request t hn
  cases hr.transacted.asked hresponse hcounts (op.payloadFits_request t) with
  | unsent hf hr' hq =>
    subst hq
    refine h.imp_right fun h => ?_
    obtain ⟨request, hsend⟩ := Session.requestFrame_of_small (m := ⟨sessionTag, op.request t⟩)
      hresponse htexts (show 4 + (1 + 2 + (op.request t).size) ≤ 256 by omega) h.least
    rw [hf] at hsend
    cases hsend
  | @sent request reply hlog hm hreply =>
    rcases h with h | h
    · rw [Kept, hlog]
      exact .inl (Nat.le_trans h (Nat.add_le_add_right (Peer.namings_le_cons ..) _))
    have hv : (op.request t).type ≠ .tversion := by
      cases op <;> exact fun h => by cases h
    obtain ⟨hstream, answer, ha, hresult⟩ := hreply h.stream (h.room hv)
    refine .inr ⟨?_, ?_⟩
    · have hv : (op.request t).known.type ≠ .tversion := by rwa [Body.type_known]
      have h : Books held (idle + 0) t p := h
      exact h.sent hstream hlog hm ha hv (by rw [hknown]; rfl) (hsettle h answer.body)
        (h.nodup.sublist hsub)
        fun fid hf => h.taken fid (hsub.subset hf)
    · cases r with
      | ok b => rfl
      | error e =>
        refine unsent_error (Error.isUnsent_of_isReceived ?_)
        rcases hr.refused e rfl with he | he
        · rcases hresult with ⟨hok, -⟩ | ⟨-, e', he', hreceived⟩
          · rw [hok] at he
            cases he
          · rw [he'] at he
            exact Except.error.inj he ▸ hreceived
        · exact he

/-- An operation that establishes no fid and ends none. -/
theorem quiet {x : Client α} {f : α → Body} (op : Session.Operation) (hx : op.perform = f <$> x)
    (hop : op.isQuiet = true) (h : Balanced held idle s p) :
    Always (Peer.Step .serving) x s p (Entered (fun _ => held) held idle) := by
  have hn : (op.request s).known.newFid? = none ∧ (op.request s).known.type ≠ .tclunk := by
    cases op with
    | walk => cases hop
    | clunk => cases hop
    | _ => exact ⟨rfl, fun h => by cases h⟩
  have hn' : (op.request s).newFid? = none := by
    cases op with
    | walk => cases hop
    | _ => rfl
  have hp : Always (Peer.Step .serving) op.perform s p (Kept held idle) := by
    refine perform h hn' (.refl held) fun h reply fid => ?_
    rw [Body.settle_of_ne hn.1 hn.2, h.live]
  rw [hx] at hp
  exact hp.of_map.mono fun _ _ _ h => h.of_map.entered

/-- A clunk ends its fid, whatever the reply. -/
theorem clunk {fid : UInt32} (h : Balanced (fid :: held) idle s p) :
    Always (Peer.Step .serving) (Session.clunk fid) s p (Kept held idle) := by
  have hp : Always (Peer.Step .serving) (Session.Operation.clunk fid).perform s p
      (Kept held idle) := by
    refine perform h rfl (List.sublist_cons_self ..) fun h reply fid' => ?_
    have hnot := (List.nodup_cons.1 h.nodup).1
    show fid' ∈ (Peer.live p.log).filter (· ≠ fid) ↔ _
    rw [List.mem_filter, h.live, List.mem_cons, decide_eq_true_iff]
    constructor
    · intro hx
      obtain ⟨hf | hf, hne⟩ := hx
      · exact absurd hf hne
      · exact hf
    · intro hf
      exact ⟨.inr hf, fun he => hnot (he ▸ hf)⟩
  exact hp.of_map.mono fun _ _ _ h => h.of_map

end Client.Always

end NineP
