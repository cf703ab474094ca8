import NineP.Proofs.Session.Negotiated
import NineP.Proofs.Volume.Balance
import NineP.Resolve

/-!
# Fids in custody

A client that keeps to the discipline of fids knows of each fid that it holds that
it is established, of some that they are open, and of some that it has never tried
to open. What it knows follows from what it has sent and received alone
(`Holding`); it holds whatever the server does, as long as there are fids to be
had (`Custody`):

* `Custody.freshFid`: a fresh fid was never asked for;
* `Custody.attach`, `Promised.walk`: a fid that was granted is established, and
  it has never been opened;
* `Custody.lopen`: a fid is opened that was never tried;
* `Custody.use`, `Custody.clunk`: a fid is used, and given back, while it is
  established.
-/

namespace NineP

theorem Body.opens?_of_newFid {request : Body} {fid : UInt32} (h : request.newFid? = some fid) :
    request.opens? = none := by
  cases request with
  | tlopen => cases h
  | _ => rfl

/-- The fid that an operation uses without opening it or giving it back. -/
def Session.Query.looksAt? : Session.Query α → Option UInt32
  | .getattr fid _ | .statfs fid | .read fid .. | .readdir fid .. | .readlink fid => some fid
  | _ => none

theorem Body.usedFid?_of_reads {request : Body} {fid : UInt32} (h : request.reads? = some fid) :
    request.usedFid? = some fid := by
  cases request with
  | tread => exact h
  | treaddir => exact h
  | _ => cases h

/-- What a client knows of fids: those in `held` are established, those in `opened`
have been opened, and it has never tried to open those in `shut`. -/
structure Holding (held opened shut : List UInt32) (talk : Transcript) : Prop where
  established : held ⊆ talk.established
  distinct : held.Nodup
  opened : opened ⊆ talk.opened
  untried : ∀ fid ∈ shut, fid ∈ talk.named ∧ fid ∉ talk.tried
  apart : shut.Nodup

namespace Holding

variable {held opened shut held' opened' shut' : List UInt32} {talk : Transcript} {request : Body}
  {answer : Option Body} {new fid flags : UInt32}

/-- What is known may be forgotten. -/
theorem weaken (h : Holding held opened shut talk) (hh : held'.Sublist held)
    (ho : opened' ⊆ opened) (hs : shut'.Sublist shut) : Holding held' opened' shut' talk where
  established := List.Subset.trans hh.subset h.established
  distinct := h.distinct.sublist hh
  opened := List.Subset.trans ho h.opened
  untried fid hf := h.untried fid (hs.subset hf)
  apart := h.apart.sublist hs

theorem perm (h : Holding held opened shut talk) (hp : held.Perm held') :
    Holding held' opened shut talk :=
  { h with
    established := fun _ hf => h.established (hp.mem_iff.2 hf)
    distinct := hp.nodup_iff.1 h.distinct }

/-- A request that opens nothing leaves what is known of opening. -/
theorem cons (h : Holding held opened shut talk) (ho : request.opens? = none)
    (hh : held' ⊆ Body.settle talk.established request (answer.getD (.rlerror 0)))
    (hd : held'.Nodup) : Holding held' opened shut ((request, answer) :: talk) where
  established := hh
  distinct := hd
  opened := by
    rw [Transcript.opened_cons]
    exact List.subset_append_of_subset_right _ h.opened
  untried fid hf := by
    rw [Transcript.named_cons, Transcript.tried_cons, ho]
    exact ⟨List.mem_append_right _ (h.untried fid hf).1, (h.untried fid hf).2⟩
  apart := h.apart

theorem quiet (h : Holding held opened shut talk) (hn : request.newFid? = none)
    (hc : request.type ≠ .tclunk) (ho : request.opens? = none) :
    Holding held opened shut ((request, answer) :: talk) :=
  h.cons ho (by rw [Body.settle_of_ne hn hc]; exact h.established) h.distinct

/-- A fid that is granted adds to those that are known, and one that is not takes
none away. -/
theorem ungranted (h : Holding held opened shut talk) (hn : request.newFid? = some new) :
    Holding held opened shut ((request, answer) :: talk) := by
  refine h.cons (Body.opens?_of_newFid hn) ?_ h.distinct
  rw [Body.settle_of_newFid hn]
  split
  · exact List.subset_cons_of_subset _ h.established
  · exact h.established

theorem granted {reply : Body} (h : Holding held opened shut talk) (ht : talk.Disciplined)
    (hn : request.newFid? = some new) (hnew : new ∉ talk.named)
    (hg : request.grants reply = true) :
    Holding (new :: held) opened (new :: shut) ((request, some reply) :: talk) := by
  have hopens := Body.opens?_of_newFid hn
  have hheld : new ∉ held := fun hf =>
    hnew (Transcript.established_subset_named talk (h.established hf))
  have hcons : Holding (new :: held) opened shut ((request, some reply) :: talk) := by
    refine h.cons hopens ?_ (List.nodup_cons.2 ⟨hheld, h.distinct⟩)
    rw [Body.settle_of_newFid hn]
    show new :: held ⊆ if request.grants reply then new :: talk.established else talk.established
    rw [if_pos hg]
    exact List.cons_subset_cons _ h.established
  refine { hcons with
    untried := List.forall_mem_cons.2 ⟨⟨?_, ?_⟩, hcons.untried⟩
    apart := List.nodup_cons.2 ⟨fun hf => hnew (h.untried new hf).1, h.apart⟩ }
  · rw [Transcript.named_cons, hn]
    exact List.mem_cons_self ..
  · rw [Transcript.tried_cons, hopens]
    exact fun hf => hnew (ht.tried_subset_named hf)

/-- A request for a fid that was never asked for, which uses none but those that are held. -/
theorem proper_naming (h : Holding held opened shut talk) (hn : request.newFid? = some new)
    (hnew : new ∉ talk.named ∧ new ≠ 0 ∧ new ≠ noFid)
    (hu : ∀ fid, request.usedFid? = some fid → fid ∈ held)
    (hafid : ∀ afid, request.afid? = some afid → afid = noFid) : talk.Proper request where
  fresh fid hf := Option.some.inj (hn.symm.trans hf) ▸ hnew
  used fid hf := h.established (hu fid hf)
  unauthenticated := hafid
  opening fid hf := by
    rw [Body.opens?_of_newFid hn] at hf
    cases hf
  reading fid hf := by
    cases request with
    | tread => cases hn
    | treaddir => cases hn
    | _ => cases hf

theorem clunked (h : Holding (fid :: held) opened shut talk) :
    Holding held opened shut ((.tclunk fid, answer) :: talk) := by
  obtain ⟨hnot, hd⟩ := List.nodup_cons.1 h.distinct
  refine h.cons rfl (fun other hf => List.mem_filter.2 ⟨?_, ?_⟩) hd
  · exact h.established (List.mem_cons_of_mem _ hf)
  · exact decide_eq_true fun he => hnot (he ▸ hf)

/-- A fid that the client tries to open is no longer one that it never tried. -/
theorem tried (h : Holding held opened (fid :: shut) talk) :
    Holding held opened shut ((.tlopen fid flags, answer) :: talk) where
  established := h.established
  distinct := h.distinct
  opened := by
    rw [Transcript.opened_cons]
    exact List.subset_append_of_subset_right _ h.opened
  untried other hf := by
    obtain ⟨hn, ht⟩ := h.untried other (List.mem_cons_of_mem _ hf)
    rw [Transcript.named_cons, Transcript.tried_cons]
    refine ⟨List.mem_append_right _ hn, fun ht' => ?_⟩
    rcases List.mem_cons.1 ht' with rfl | ht'
    · exact (List.nodup_cons.1 h.apart).1 hf
    · exact ht ht'
  apart := (List.nodup_cons.1 h.apart).2

theorem lopened {qid : Qid} {iounit : UInt32} (h : Holding held opened (fid :: shut) talk) :
    Holding held (fid :: opened) shut
      ((.tlopen fid flags, some (.rlopen qid iounit)) :: talk) :=
  { h.tried with opened := List.cons_subset_cons _ h.opened }

end Holding

/-! ## Accounts -/

/-- The requests so far are disciplined, and the fids that they asked for were
taken in a row from the first. Of the fids that have been taken, `idle` were asked
for by no request. -/
structure Ledger (idle : Nat) (s : Session) (log : Wire) : Prop where
  least : minMsize ≤ s.msize
  next : s.fids.next.toNat = log.transcript.named.length + idle + 1
  disciplined : log.Disciplined
  taken : ∀ fid ∈ log.transcript.named, fid.toNat < s.fids.next.toNat

/-- The account is right and `R` is known of what was said, unless the fids have
run out. -/
def Accounted (R : Transcript → Prop) (idle : Nat) (s : Session) (log : Wire) : Prop :=
  fidSupply ≤ log.transcript.named.length + idle ∨ Ledger idle s log ∧ R log.transcript

/-- A client with these fids, unless they have run out. -/
def Custody (held opened shut : List UInt32) : (idle : Nat) → Session → Wire → Prop :=
  Accounted (Holding held opened shut)

/-- As `Custody`, with a fid that has been taken and not been asked for. -/
def Promised (held opened shut : List UInt32) (idle : Nat) (fid : UInt32) (s : Session)
    (log : Wire) : Prop :=
  fidSupply ≤ log.transcript.named.length + (idle + 1) ∨
    Ledger (idle + 1) s log ∧ Holding held opened shut log.transcript ∧
      fid ∉ log.transcript.named ∧ fid ≠ 0 ∧ fid ≠ noFid ∧ fid.toNat < s.fids.next.toNat

/-- As `Custody`, after an operation that does not fail before its request is
sent. -/
def Retained (held opened shut : List UInt32) (idle : Nat) (r : Except Error α) :
    Session → Wire → Prop :=
  Accounted (fun talk => Holding held opened shut talk ∧ unsent r = 0) idle

/-- After a result there is the gain, and after a failure there are these fids. -/
def Gained (gain : α → Session → Wire → Prop) (held opened shut : List UInt32) (idle : Nat)
    (r : Except Error α) (s : Session) (log : Wire) : Prop :=
  match r with
  | .ok a => gain a s log
  | .error _ => Custody held opened shut (idle + unsent r) s log

section

variable {R R' : Transcript → Prop} {idle : Nat} {s : Session} {log : Wire}
  {entry : Bytes × Bytes} {request : Body} {answer : Option Body}

theorem Wire.length_named_cons (h : Wire.exchanged? entry = some (request, answer)) :
    (Wire.transcript (entry :: log)).named.length =
      log.transcript.named.length + request.newFid?.toList.length := by
  rw [Wire.transcript_cons h, Transcript.named_cons, List.length_append, Nat.add_comm]

/-- A fid that a request asks for is not idle. -/
theorem Ledger.sent (h : Ledger (idle + request.newFid?.toList.length) s log)
    (he : Wire.exchanged? entry = some (request, answer)) (hp : log.transcript.Proper request)
    (ht : ∀ fid, request.newFid? = some fid → fid.toNat < s.fids.next.toNat) :
    Ledger idle s (entry :: log) where
  least := h.least
  next := by
    rw [Wire.length_named_cons he, h.next]
    omega
  disciplined := h.disciplined.cons he hp
  taken fid hf := by
    rw [Wire.transcript_cons he, Transcript.named_cons, List.mem_append, Option.mem_toList] at hf
    exact hf.elim (ht fid) (h.taken fid)

namespace Accounted

theorem mono (h : Accounted R idle s log) (hr : R log.transcript → R' log.transcript) :
    Accounted R' idle s log :=
  h.imp_right fun h => ⟨h.1, hr h.2⟩

/-- What is left idle does not count less. -/
theorem add_idle (h : fidSupply ≤ log.transcript.named.length + idle) (n : Nat) :
    Accounted R (idle + n) s log :=
  .inl (Nat.le_trans h (Nat.add_le_add_left (Nat.le_add_right ..) _))

/-- Once the fids have run out there is nothing to show. -/
theorem exhausted (h : fidSupply ≤ log.transcript.named.length + idle)
    (he : Wire.exchanged? entry = some (request, answer)) : Accounted R idle s (entry :: log) := by
  refine .inl (Nat.le_trans h (Nat.add_le_add_right ?_ _))
  rw [Wire.length_named_cons he]
  exact Nat.le_add_right ..

end Accounted

end

section

variable {held opened shut held' opened' shut' : List UInt32} {idle : Nat} {s : Session}
  {log : Wire}

theorem Custody.weaken (h : Custody held opened shut idle s log) (hh : held'.Sublist held)
    (ho : opened' ⊆ opened) (hs : shut'.Sublist shut) : Custody held' opened' shut' idle s log :=
  Accounted.mono h fun h => h.weaken hh ho hs

theorem Custody.perm (h : Custody held opened shut idle s log) (hp : held.Perm held') :
    Custody held' opened shut idle s log :=
  Accounted.mono h fun h => h.perm hp

/-- A failure that is not for want of a request leaves all as it is. -/
theorem Gained.error {gain : α → Session → Wire → Prop} {e : Error}
    (h : Custody held opened shut idle s log) (he : e.isUnsent = false) :
    Gained gain held opened shut idle (.error e) s log := by
  show Custody held opened shut (idle + unsent (.error e)) s log
  rw [unsent_error he]
  exact h

theorem Gained.custody {r : Except Error α}
    (h : Gained (fun _ => Custody held opened shut idle) held opened shut idle r s log) :
    Custody held opened shut (idle + unsent r) s log := by
  cases r with
  | ok a => exact h
  | error e => exact h

namespace Retained

variable {r : Except Error α}

theorem custody (h : Retained held opened shut idle r s log) :
    Custody held opened shut idle s log :=
  h.mono And.left

theorem unsent (h : Retained held opened shut idle r s log) :
    Custody held opened shut (idle + unsent r) s log := by
  rcases h with h | ⟨hl, hh, hu⟩
  · exact Accounted.add_idle h _
  · rw [hu]
    exact .inr ⟨hl, hh⟩

theorem gained (h : Retained held opened shut idle r s log) :
    Gained (fun _ => Custody held opened shut idle) held opened shut idle r s log := by
  cases r with
  | ok a => exact h.custody
  | error e => exact h.unsent

end Retained

end

/-! ## Operations -/

section

variable {held opened shut : List UInt32} {idle : Nat} {s : Session} {log : Wire} {α : Type}

open Client Session

/-- A plain request is always sent, so that it leaves nothing idle. -/
theorem Custody.plain {R : Except Error α → Transcript → Prop}
    (h : Custody held opened shut idle s log) (op : Query α) (hop : op.isPlain = true)
    (hp : Holding held opened shut log.transcript → log.transcript.Proper (op.body s).known)
    (hr : ∀ r answer, (op.expected ≠ .rreadlink → ∀ a, r = .ok a →
        ∃ b, answer = some b ∧ op.reading s b = some (.ok a)) →
      Holding held opened shut log.transcript →
      R r (((op.body s).known, answer) :: log.transcript)) :
    Always Wire.Step op.perform s log fun r t log' =>
      Accounted (fun talk => R r talk ∧ unsent r = 0) idle t log' := by
  have hbody : (op.body s).CountsHold ∧ (op.body s).known.newFid? = none ∧
      ∀ r, op.leaves s r = s := by
    cases op with
    | negotiate => cases hop
    | attach => cases hop
    | walk => cases hop
    | _ => exact ⟨trivial, rfl, fun _ => rfl⟩
  obtain ⟨hcounts, hnew, hleaves⟩ := hbody
  refine (Query.always_told hcounts).mono fun r t log' ⟨ht, htold⟩ => ?_
  rw [hleaves] at ht
  subst ht
  cases htold with
  | unsent hf =>
    refine .imp_right (fun h => ?_) h
    obtain ⟨request, hsend⟩ := Query.sends_of_isPlain hop h.1.least
    rw [hf] at hsend
    cases hsend
  | @sent r entry answer he hu hok =>
    rcases h with h | ⟨hledger, hholding⟩
    · exact Accounted.exhausted h he
    · have hledger : Ledger (idle + (op.body t).known.newFid?.toList.length) t log := by
        rw [hnew]
        exact hledger
      refine .inr ⟨hledger.sent he (hp hholding) (fun fid hf => ?_), ?_, ?_⟩
      · rw [hnew] at hf
        cases hf
      · rw [Wire.transcript_cons he]
        exact hr r answer hok hholding
      · cases r with
        | ok a => rfl
        | error e => exact unsent_error (hu e rfl)

/-- A fid that is held may be used, and one that was opened may be read from. -/
theorem Custody.use {fid : UInt32} (h : Custody held opened shut idle s log) (op : Query α)
    (hop : op.looksAt? = some fid) (hf : fid ∈ held)
    (hr : (op.body s).reads? = none ∨ fid ∈ opened) :
    Always Wire.Step op.perform s log (Retained held opened shut idle) := by
  have hbody : op.isPlain = true ∧ (op.body s).known.usedFid? = some fid ∧
      (op.body s).known.newFid? = none ∧ (op.body s).known.afid? = none ∧
      (op.body s).known.opens? = none ∧ (op.body s).known.type ≠ .tclunk := by
    cases op with
    | negotiate => cases hop
    | attach => cases hop
    | walk => cases hop
    | lopen => cases hop
    | clunk => cases hop
    | _ => exact ⟨rfl, hop, rfl, rfl, rfl, fun h => by cases h⟩
  obtain ⟨hplain, hu, hnew, hafid, ho, htype⟩ := hbody
  rw [← Body.reads?_known] at hr
  refine h.plain op hplain (fun hh => ?_) fun r answer _ hh => hh.quiet hnew htype ho
  exact {
    fresh := fun fid hf => by rw [hnew] at hf; cases hf
    used := fun used hu' => Option.some.inj (hu.symm.trans hu') ▸ hh.established hf
    unauthenticated := fun afid hf => by rw [hafid] at hf; cases hf
    opening := fun fid hf => by rw [ho] at hf; cases hf
    reading := fun read hr' => by
      obtain rfl := Option.some.inj (hu.symm.trans (Body.usedFid?_of_reads hr'))
      rcases hr with hr | hr
      · rw [hr'] at hr
        cases hr
      · exact hh.opened hr
  }

/-- A fid is given back, whatever the server says to it. -/
theorem Custody.clunk {fid : UInt32} (h : Custody (fid :: held) opened shut idle s log) :
    Always Wire.Step (Session.clunk fid) s log (Retained held opened shut idle) := by
  refine h.plain (.clunk fid) rfl (fun hh => ?_) fun r answer _ hh => hh.clunked
  exact {
    fresh := fun _ hf => by cases hf
    used := fun used hf => by
      obtain rfl := Option.some.inj hf
      exact hh.established (List.mem_cons_self ..)
    unauthenticated := fun _ hf => by cases hf
    opening := fun _ hf => by cases hf
    reading := fun _ hf => by cases hf
  }

/-- A fid is opened that was never tried before. -/
theorem Custody.lopen {fid : UInt32} (flags : UInt32)
    (h : Custody held opened (fid :: shut) idle s log) (hf : fid ∈ held) :
    Always Wire.Step (Session.lopen fid flags) s log
      (Gained (fun _ => Custody held (fid :: opened) shut idle) held opened shut idle) := by
  let R (r : Except Error (Qid × UInt32)) : Transcript → Prop :=
    Holding held (match r with | .ok _ => fid :: opened | .error _ => opened) shut
  have hopen : Always Wire.Step (Session.lopen fid flags) s log fun r t log' =>
      Accounted (fun talk => R r talk ∧ unsent r = 0) idle t log' := by
    refine h.plain (.lopen fid flags) rfl (fun hh => ?_) fun r answer hok hh => ?_
    · exact {
        fresh := fun _ hf => by cases hf
        used := fun used hu => by
          obtain rfl := Option.some.inj hu
          exact hh.established hf
        unauthenticated := fun _ hf => by cases hf
        opening := fun opening ho hopened => by
          obtain rfl := Option.some.inj ho
          have huntried := (hh.untried fid (List.mem_cons_self ..)).2
          exact huntried (Transcript.opened_subset_tried _ hopened)
        reading := fun _ hf => by cases hf
      }
    · cases r with
      | error e => exact hh.tried
      | ok a =>
        obtain ⟨b, rfl, hb⟩ := hok (fun h => by cases h) a rfl
        cases b with
        | rlopen => exact hh.lopened
        | _ => cases hb
  refine hopen.mono fun r t log' hr => ?_
  cases r with
  | ok a => exact Accounted.mono hr And.left
  | error e =>
    have hr : Retained held opened shut idle (.error e : Except Error (Qid × UInt32)) t log' := hr
    exact hr.unsent

/-- The next fid was never asked for. -/
theorem Custody.take (h : Custody held opened shut idle s log) :
    Promised held opened shut idle s.fids.take.1 { s with fids := s.fids.take.2 } log := by
  rcases h with h | ⟨hledger, hholding⟩
  · exact .inl (by omega)
  by_cases hs : fidSupply ≤ log.transcript.named.length + (idle + 1)
  · exact .inl hs
  have hnext := hledger.next
  simp only [fidSupply] at hs
  obtain ⟨hfirst, hsucc⟩ := FidSource.toNat_take_of_lt (s := s.fids) (by omega) (by omega)
  have hnot : isReservedFid s.fids.take.1 = false := FidSource.isReserved_firstFid s.fids.next
  rw [isReservedFid, Bool.or_eq_false_iff, beq_eq_false_iff_ne, beq_eq_false_iff_ne] at hnot
  refine .inr ⟨⟨hledger.least, ?_, hledger.disciplined, fun fid hf => ?_⟩, hholding,
    fun hf => ?_, hnot.2, hnot.1, ?_⟩
  · show s.fids.take.2.next.toNat = _
    omega
  · have := hledger.taken fid hf
    show _ < s.fids.take.2.next.toNat
    omega
  · exact Nat.lt_irrefl _ (hfirst ▸ hledger.taken _ hf)
  · show _ < s.fids.take.2.next.toNat
    rw [hfirst]
    omega

theorem Custody.freshFid (h : Custody held opened shut idle s log) :
    Always Wire.Step freshFid s log (Yields (Promised held opened shut idle)) :=
  Dialogue.Always.done ⟨s.fids.take.1, rfl, h.take⟩

/-- A fid that is asked for is held once it has been granted. If the request is
not sent then the fid stays idle. -/
theorem Promised.naming {new : UInt32} {t : Session}
    (h : Promised held opened shut idle new t log) (op : Query α) (name : α → UInt32)
    (ht : ∀ r, op.leaves s r = t) (ha : op.vetted = .ok ()) (hc : (op.body s).CountsHold)
    (hk : (op.body s).known = op.body s) (hn : (op.body s).newFid? = some new)
    (hu : ∀ fid, (op.body s).usedFid? = some fid → fid ∈ held)
    (hafid : ∀ afid, (op.body s).afid? = some afid → afid = noFid)
    (hl : op.expected ≠ .rreadlink)
    (hg : ∀ b a, op.reading s b = some (.ok a) → (op.body s).grants b = true ∧ name a = new) :
    Always Wire.Step op.perform s log
      (Gained (fun a => Custody (name a :: held) opened (name a :: shut) idle)
        held opened shut idle) := by
  refine (Query.always_told hc).mono fun r t' log' ⟨ht', htold⟩ => ?_
  rw [ht] at ht'
  subst ht'
  cases htold with
  | @unsent e hf =>
    show Custody held opened shut (idle + unsent (.error e)) t' log
    have hidle : unsent (.error e : Except Error α) = 1 := if_pos (Query.isUnsent_of_sends ha hf)
    rw [hidle]
    exact h.imp_right fun h => ⟨h.1, h.2.1⟩
  | @sent r entry answer he hunsent hok =>
    rw [hk] at he
    rcases h with h | ⟨hledger, hholding, hnew, hzero, hno, hlt⟩
    -- Once the fids have run out there is nothing to show.
    · have hcount :
          fidSupply ≤ (Wire.transcript (entry :: log)).named.length + idle := by
        rw [Wire.length_named_cons he, hn]
        show fidSupply ≤ log.transcript.named.length + 1 + idle
        omega
      cases r with
      | ok a => exact .inl hcount
      | error e => exact Accounted.add_idle hcount _
    · have hproper : log.transcript.Proper (op.body s) :=
        hholding.proper_naming hn ⟨hnew, hzero, hno⟩ hu hafid
      have hsent : Ledger idle t' (entry :: log) := by
        refine Ledger.sent (by rw [hn]; exact hledger) he hproper fun fid hf => ?_
        obtain rfl := Option.some.inj (hn.symm.trans hf)
        exact hlt
      cases r with
      | ok a =>
        obtain ⟨b, rfl, hb⟩ := hok hl a rfl
        obtain ⟨hgrants, rfl⟩ := hg b a hb
        refine .inr ⟨hsent, ?_⟩
        rw [Wire.transcript_cons he]
        exact hholding.granted hledger.disciplined.2 hn hnew hgrants
      | error e =>
        refine Gained.error (.inr ⟨hsent, ?_⟩) (hunsent e rfl)
        rw [Wire.transcript_cons he]
        exact hholding.ungranted hn

/-- A walk through at most one name establishes a fid that was never opened. -/
theorem Promised.walk {fid new : UInt32} (h : Promised held opened shut idle new s log)
    (names : List String) (hf : fid ∈ held) (hn : names.length ≤ 1) :
    Always Wire.Step (Session.walk fid new names) s log
      (Gained (fun _ => Custody (new :: held) opened (new :: shut) idle)
        held opened shut idle) := by
  refine h.naming (.walk fid new names) (fun _ => new) (fun _ => rfl) rfl
    (show names.length ≤ 65535 by omega) rfl rfl (fun used hu => ?_) (fun _ h => by cases h)
    (fun h => by cases h) fun b a hb => ?_
  · exact Option.some.inj hu ▸ hf
  · cases b with
    | rwalk qids =>
      have hb : (if qids.length > names.length then _ else if qids.length < names.length then _
        else .ok qids : Except Error (List Qid)) = .ok a := Option.some.inj hb
      split at hb
      · cases hb
      rename_i hmore
      split at hb
      · cases hb
      rename_i hless
      exact ⟨beq_iff_eq.2 (Nat.le_antisymm (Nat.not_lt.1 hmore) (Nat.not_lt.1 hless)), rfl⟩
    | _ => cases hb

/-- An attach establishes a fid that was never opened. -/
theorem Custody.attach {uname aname : String} (h : Custody held opened shut idle s log) :
    Always Wire.Step (Session.attach uname aname) s log
      (Gained (fun a => Custody (a.1 :: held) opened (a.1 :: shut) idle)
        held opened shut idle) := by
  refine h.take.naming (.attach uname aname) Prod.fst (fun _ => rfl) rfl trivial rfl rfl
    (fun _ h => by cases h) (fun _ h => (Option.some.inj h).symm) (fun h => by cases h)
    fun b a hb => ?_
  cases b with
  | rattach qid =>
    obtain rfl := Except.ok.inj (Option.some.inj hb)
    exact ⟨rfl, rfl⟩
  | _ => cases hb

/-- A handshake changes the message size, and no fid. -/
theorem Custody.negotiate {proposal : UInt32} (h : Custody held opened shut idle s log) :
    Always Wire.Step (Session.negotiate proposal) s log fun _ t log' =>
      Custody held opened shut idle t log' := by
  have hrecorded : Always Wire.Step (Query.negotiate proposal).perform s log _ :=
    Query.always_recorded
  refine hrecorded.mono fun r t log' ⟨ht, hr⟩ => ?_
  have hfids : t.fids = s.fids := by
    subst ht
    cases r <;> rfl
  have resized {log : Wire} (hl : Ledger idle s log) (hs : minMsize ≤ s.msize) :
      Ledger idle t log :=
    ⟨ht ▸ hr.least hs, hfids ▸ hl.next, hl.disciplined, hfids ▸ hl.taken⟩
  cases hr.told trivial with
  | unsent => exact h.imp_right fun h => ⟨resized h.1 h.1.least, h.2⟩
  | @sent r entry answer he =>
    rcases h with h | ⟨hledger, hholding⟩
    · exact Accounted.exhausted h he
    · have hnone : Ledger (idle + ((Query.negotiate proposal).body s).known.newFid?.toList.length)
          s log := hledger
      have hsent : Ledger idle s (entry :: log) := hnone.sent he {
        fresh := fun _ hf => by cases hf
        used := fun _ hf => by cases hf
        unauthenticated := fun _ hf => by cases hf
        opening := fun _ hf => by cases hf
        reading := fun _ hf => by cases hf
      } fun _ hf => by cases hf
      refine .inr ⟨resized hsent hledger.least, ?_⟩
      rw [Wire.transcript_cons he]
      exact hholding.quiet rfl (fun h => by cases h) rfl

end

end NineP
