import NineP.Proofs.World.Discipline

/-!
# A server and a record of its wire

What a server has granted stands in its log, and whether its client keeps to the
discipline of fids in the record of what goes over the wire. Both hold the same
requests (`Tapped.Aligned`), so that what is known of the one is known of the other:

* `Peer.count_clunked`: with a disciplined client a fid that was granted is given back
  once if it is no longer live, and not at all if it is;
* `Tapped.runs_of_runs`: a run with a server is one in which the wire is recorded;
* `Tapped.always`: what holds of every run with the server and what holds of
  every record hold together.
-/

namespace NineP

/-- Whether a call neither sends nor receives. -/
def Call.isStill : Call → Bool
  | .transmit .. | .receive _ => false
  | _ => true

/-- The fid that a request gives back. -/
def Body.clunks? : Body → Option UInt32
  | .tclunk fid => some fid
  | _ => none

namespace Body

variable {request : Body} {fid : UInt32}

theorem eq_of_clunks (h : request.clunks? = some fid) : request = .tclunk fid := by
  cases request with
  | tclunk => exact congrArg _ (Option.some.inj h)
  | _ => cases h

theorem settle_of_not_clunks (hc : request.clunks? = none) (live : List UInt32) (reply : Body) :
    settle live request reply =
      (if request.grants reply then request.newFid?.toList else []) ++ live := by
  have htype : request.type ≠ .tclunk := by
    cases request with
    | tclunk => cases hc
    | _ => exact fun h => by cases h
  cases hn : request.newFid? with
  | none =>
    rw [settle_of_ne hn htype, Option.toList_none, ite_self]
    rfl
  | some new =>
    rw [settle_of_newFid hn]
    split <;> rfl

end Body

/-! ## Requests -/

namespace Transcript

variable {talk talk' : Transcript} {request : Body} {answer : Option Body} {fid : UInt32}

/-- The fids that have been given back, the last first. -/
def clunked (talk : Transcript) : List UInt32 := talk.filterMap (·.1.clunks?)

/-- What requests alone say of fids: none is asked for twice, and none is given back that
was not asked for or that was given back before. -/
def Orderly : Transcript → Prop
  | [] => True
  | (request, _) :: before => Orderly before ∧
    (∀ fid, request.newFid? = some fid → fid ∉ named before) ∧
    ∀ fid, request.clunks? = some fid → fid ∈ named before ∧ fid ∉ clunked before

theorem clunked_cons (talk : Transcript) (request : Body) (answer : Option Body) :
    clunked ((request, answer) :: talk) = request.clunks?.toList ++ talk.clunked := by
  cases h : request.clunks? with
  | none => exact List.filterMap_cons_none h
  | some fid => exact List.filterMap_cons_some h

theorem named_congr (h : talk.map Prod.fst = talk'.map Prod.fst) : talk.named = talk'.named := by
  have hmap (talk : Transcript) : talk.named = (talk.map Prod.fst).filterMap Body.newFid? := by
    rw [List.filterMap_map]
    rfl
  rw [hmap, hmap, h]

theorem clunked_congr (h : talk.map Prod.fst = talk'.map Prod.fst) :
    talk.clunked = talk'.clunked := by
  have hmap (talk : Transcript) : talk.clunked = (talk.map Prod.fst).filterMap Body.clunks? := by
    rw [List.filterMap_map]
    rfl
  rw [hmap, hmap, h]

/-- The answers do not count. -/
theorem Orderly.congr (ho : talk.Orderly) (h : talk.map Prod.fst = talk'.map Prod.fst) :
    talk'.Orderly := by
  induction talk generalizing talk' with
  | nil => rwa [List.map_eq_nil_iff.1 h.symm]
  | cons entry talk ih =>
    cases talk' with
    | nil => cases h
    | cons entry' talk' =>
      obtain ⟨hhead, htail⟩ := List.cons_eq_cons.1 h
      obtain ⟨hbefore, hnew, hclunk⟩ := ho
      refine ⟨ih hbefore htail, ?_, ?_⟩
      · rwa [← named_congr htail, ← hhead]
      · rwa [← named_congr htail, ← clunked_congr htail, ← hhead]

/-- A fid that is given back was asked for. -/
theorem Orderly.clunked_subset_named (h : talk.Orderly) : talk.clunked ⊆ talk.named := by
  induction talk with
  | nil => exact List.Subset.refl _
  | cons entry talk ih =>
    obtain ⟨request, answer⟩ := entry
    intro fid hf
    rw [clunked_cons, List.mem_append, Option.mem_toList] at hf
    rw [named_cons, List.mem_append]
    rcases hf with hf | hf
    · exact .inr (h.2.2 fid hf).1
    · exact .inr (ih h.1 hf)

theorem Orderly.nodup_clunked (h : talk.Orderly) : talk.clunked.Nodup := by
  induction talk with
  | nil => exact List.nodup_nil
  | cons entry talk ih =>
    obtain ⟨request, answer⟩ := entry
    rw [clunked_cons]
    cases hc : request.clunks? with
    | none => exact ih h.1
    | some fid => exact List.nodup_cons.2 ⟨(h.2.2 fid hc).2, ih h.1⟩

theorem usedFid?_of_clunks (h : request.clunks? = some fid) : request.usedFid? = some fid := by
  rw [Body.eq_of_clunks h]
  rfl

/-- A fid that is established has not been given back. -/
theorem not_clunked_of_established (ho : talk.Orderly) (hf : fid ∈ talk.established) :
    fid ∉ talk.clunked := by
  induction talk with
  | nil => exact List.not_mem_nil
  | cons entry talk ih =>
    obtain ⟨request, answer⟩ := entry
    rw [clunked_cons, List.mem_append, Option.mem_toList]
    cases hc : request.clunks? with
    | some gone =>
      rw [Body.eq_of_clunks hc] at hf
      obtain ⟨hold, hne⟩ := List.mem_filter.1 hf
      have hne := of_decide_eq_true hne
      exact not_or.2 ⟨fun h => hne (Option.some.inj h).symm, ih ho.1 hold⟩
    | none =>
      rw [established, Body.settle_of_not_clunks hc, List.mem_append] at hf
      refine not_or.2 ⟨fun h => (by cases h), ?_⟩
      rcases hf with hf | hf
      · split at hf
        · -- A fid that is new was never asked for, and so never given back.
          exact fun hgone => ho.2.1 fid (Option.mem_toList.1 hf) (ho.1.clunked_subset_named hgone)
        · cases hf
      · exact ih ho.1 hf

theorem Disciplined.orderly (h : talk.Disciplined) : talk.Orderly := by
  induction talk with
  | nil => trivial
  | cons entry talk ih =>
    have ho := ih h.2
    refine ⟨ho, fun fid hf => (h.1.fresh fid hf).1, fun fid hf => ?_⟩
    have hold := h.1.used fid (usedFid?_of_clunks hf)
    exact ⟨established_subset_named talk hold, not_clunked_of_established ho hold⟩

end Transcript

namespace Wire

variable {log log' : Wire} {entry : Bytes × Bytes}

theorem transcript_cons_none (h : exchanged? entry = none) :
    transcript (entry :: log) = log.transcript :=
  List.filterMap_cons_none h

/-- What is said is a request and its answer if the request is a frame. -/
theorem transcript_cons_of_decode {request reply : Bytes} {m : Message}
    (hm : Frame.decode request = .ok m) :
    transcript ((request, reply) :: log) = (m.body, answer? m.tag reply) :: log.transcript :=
  transcript_cons (by rw [exchanged?, hm])

/-- The same requests are the same ones in the transcript. -/
theorem map_transcript_congr (h : log.map Prod.fst = log'.map Prod.fst) :
    log.transcript.map Prod.fst = log'.transcript.map Prod.fst := by
  have hmap (log : Wire) : log.transcript.map Prod.fst = (log.map Prod.fst).filterMap fun request =>
      (Frame.decode request).toOption.map Message.body := by
    rw [transcript, List.map_filterMap, List.filterMap_map]
    refine congrArg (List.filterMap · log) (funext fun entry => ?_)
    show (exchanged? entry).map Prod.fst = (Frame.decode entry.1).toOption.map Message.body
    rw [exchanged?]
    cases Frame.decode entry.1 <;> rfl
  rw [hmap, hmap, h]

end Wire

/-! ## Grants -/

namespace Peer

variable {log : List (Bytes × Bytes)} {fid : UInt32}

/-- The fids that were asked for and granted, the last first. -/
def granted (log : List (Bytes × Bytes)) : List UInt32 :=
  log.flatMap fun entry =>
    match messages? entry with
    | some (m, r) => if m.body.grants r.body then m.body.newFid?.toList else []
    | none => []

/-- The fids that requests have given back, the last first. -/
def clunked (log : List (Bytes × Bytes)) : List UInt32 := (Wire.transcript log).clunked

/-- Every request to give a fid back has a reply. -/
def Answered (log : List (Bytes × Bytes)) : Prop :=
  ∀ entry ∈ log, ∀ m fid, Frame.decode entry.1 = .ok m → m.body.clunks? = some fid →
    ∃ r, Frame.decode entry.2 = .ok r

theorem namings_eq (log : List (Bytes × Bytes)) :
    namings log = (Wire.transcript log).named.length := by
  induction log with
  | nil => rfl
  | cons entry log ih =>
    obtain ⟨request, reply⟩ := entry
    cases h : Frame.decode request with
    | ok m =>
      rw [namings_cons h, Wire.transcript_cons_of_decode h, Transcript.named_cons,
        List.length_append, ih, Nat.add_comm]
      cases m.body.newFid? <;> rfl
    | error fault =>
      rw [Wire.transcript_cons_none (by rw [Wire.exchanged?, h]), ← ih, namings, namings,
        List.countP_cons, h]
      rfl

theorem granted_cons {request reply : Bytes} {m r : Message} (hm : Frame.decode request = .ok m)
    (hr : Frame.decode reply = .ok r) : granted ((request, reply) :: log) =
      (if m.body.grants r.body then m.body.newFid?.toList else []) ++ granted log := by
  rw [granted, List.flatMap_cons, messages?_eq_some hm hr]
  rfl

theorem clunked_cons {request reply : Bytes} {m : Message} (hm : Frame.decode request = .ok m) :
    clunked ((request, reply) :: log) = m.body.clunks?.toList ++ clunked log := by
  rw [clunked, Wire.transcript_cons_of_decode hm, Transcript.clunked_cons]
  rfl

/-- The fids that are live are those that were granted and have not been given back. -/
theorem mem_live_iff (ha : Answered log) (ho : (Wire.transcript log).Orderly) :
    fid ∈ live log ↔ fid ∈ granted log ∧ fid ∉ clunked log := by
  induction log with
  | nil => exact ⟨fun h => absurd h List.not_mem_nil, fun h => absurd h.1 List.not_mem_nil⟩
  | cons entry log ih =>
    obtain ⟨request, reply⟩ := entry
    obtain ⟨hanswer, ha⟩ := List.forall_mem_cons.1 ha
    cases hm : Frame.decode request with
    | error fault =>
      -- What is no request says nothing.
      have hnone : messages? (request, reply) = none := by rw [messages?, hm]
      rw [Wire.transcript_cons_none (by rw [Wire.exchanged?, hm])] at ho
      rw [live, granted, List.flatMap_cons, clunked, hnone,
        Wire.transcript_cons_none (by rw [Wire.exchanged?, hm])]
      exact ih ha ho
    | ok m =>
      rw [Wire.transcript_cons_of_decode hm] at ho
      have ih := ih ha ho.1
      rw [clunked_cons hm]
      cases hr : Frame.decode reply with
      | error fault =>
        have hnone : messages? (request, reply) = none := by rw [messages?, hm, hr]
        have hc : m.body.clunks? = none := by
          cases hc : m.body.clunks? with
          | none => rfl
          | some gone =>
            obtain ⟨r, hr'⟩ := hanswer m gone hm hc
            rw [hr] at hr'
            cases hr'
        rw [live, granted, List.flatMap_cons, hnone, hc]
        exact ih
      | ok r =>
        rw [live_cons hm hr, granted_cons hm hr]
        cases hc : m.body.clunks? with
        | some gone =>
          rw [Body.eq_of_clunks hc]
          show fid ∈ (live log).filter (· ≠ gone) ↔ fid ∈ granted log ∧ fid ∉ gone :: clunked log
          rw [List.mem_filter, ih, decide_eq_true_iff, List.mem_cons, not_or]
          exact ⟨fun h => ⟨h.1.1, h.2, h.1.2⟩, fun h => ⟨⟨h.1, h.2.2⟩, h.2.1⟩⟩
        | none =>
          rw [Body.settle_of_not_clunks hc, List.mem_append, List.mem_append, ih]
          show _ ↔ _ ∧ fid ∉ clunked log
          constructor
          · rintro (hnew | hold)
            · refine ⟨.inl hnew, fun hgone => ?_⟩
              split at hnew
              · -- A fid that is new was never asked for, and so never given back.
                exact ho.2.1 fid (Option.mem_toList.1 hnew) (ho.1.clunked_subset_named hgone)
              · cases hnew
            · exact ⟨.inr hold.1, hold.2⟩
          · rintro ⟨hnew | hold, hnot⟩
            · exact .inl hnew
            · exact .inr ⟨hold, hnot⟩

/-- A fid that was granted is given back once, unless it is live. -/
theorem count_clunked (ha : Answered log) (ho : (Wire.transcript log).Orderly)
    (hg : fid ∈ granted log) :
    (clunked log).count fid = if fid ∈ live log then 0 else 1 := by
  split
  · rename_i hlive
    exact List.count_eq_zero.2 ((mem_live_iff ha ho).1 hlive).2
  · rename_i hlive
    have hgone : fid ∈ clunked log := Decidable.byContradiction fun hnot =>
      hlive ((mem_live_iff ha ho).2 ⟨hg, hnot⟩)
    exact Nat.le_antisymm (List.nodup_iff_count.1 ho.nodup_clunked fid) (List.count_pos_iff.2 hgone)

end Peer

/-! ## The two together -/

/-- A server, and a record of what goes over the wire to it. -/
abbrev Tapped := Peer × Wire

namespace Tapped

/-- What both of them see of a call. -/
def Step (M : Manners) (w : Tapped) (c : Call) (answer : Answer) (w' : Tapped) : Prop :=
  Peer.Step M w.1 c answer w'.1 ∧ Wire.Step w.2 c answer w'.2

/-- Both hold the same requests. -/
def Aligned (w : Tapped) : Prop := w.1.log.map Prod.fst = w.2.map Prod.fst

variable {M : Manners} {α : Type} {d : Dialogue α} {a : α} {w w' : Tapped} {p q : Peer}
  {c : Call} {answer : Answer}

theorem Step.aligned (h : Step M w c answer w') (hw : w.Aligned) : w'.Aligned := by
  obtain ⟨p, log⟩ := w
  obtain ⟨p', log'⟩ := w'
  obtain ⟨hp, -, rfl⟩ := h
  have hhear (bytes : Bytes) : (log.hear bytes).map Prod.fst = log.map Prod.fst := by
    cases log <;> rfl
  cases hp with
  | transmit _ => exact congrArg (List.cons _) hw
  | receive _ _ _ _ => exact hw.trans (hhear _).symm
  | ended _ _ => exact hw.trans (hhear _).symm
  | nothing => exact hw.trans (hhear _).symm
  | _ => exact hw

/-- A request to give a fid back is one that a server replies to. -/
theorem Step.answered (h : Step .serving w c answer w') (hw : Peer.Answered w.1.log) :
    Peer.Answered w'.1.log := by
  obtain ⟨p, log⟩ := w
  obtain ⟨p', log'⟩ := w'
  obtain ⟨hp, -⟩ := h
  cases hp with
  | transmit hreply =>
    refine List.forall_mem_cons.2 ⟨fun m fid hm hc => ?_, hw⟩
    obtain ⟨r, hr, -⟩ := hreply m .rclunk hm (by rw [Body.eq_of_clunks hc]; rfl)
    exact ⟨r, hr⟩
  | _ => exact hw

/-- A call that moves no bytes is done, and nothing is sent. -/
theorem Step.eq_of_still (h : Step M w c answer w') (hc : c.isStill = true) :
    answer = .done [] ∧ w' = w := by
  obtain ⟨p, log⟩ := w
  obtain ⟨p', log'⟩ := w'
  obtain ⟨hp, -, rfl⟩ := h
  cases hp with
  | transmit => cases hc
  | receive => cases hc
  | ended => cases hc
  | stalled => cases hc
  | nothing => cases hc
  | _ => exact ⟨rfl, rfl⟩

/-- A run with a server is one in which the wire is recorded. -/
theorem runs_of_runs (h : d.Runs (Peer.Step M) p a q) (log : Wire) :
    ∃ log', d.Runs (Step M) (p, log) a (q, log') := by
  induction h generalizing log with
  | done p a => exact ⟨log, .done _ a⟩
  | @ask p p' q c answer next a hs hr ih =>
    obtain ⟨log', hlog'⟩ := ih (log.record c answer)
    refine ⟨log', .ask ⟨hs, fun e he => ?_, rfl⟩ hlog'⟩
    subst he
    cases hs

/-- What every step keeps, a run keeps. -/
theorem keeps {I : Tapped → Prop} (hI : ∀ w c answer w', Step M w c answer w' → I w → I w')
    (h : d.Runs (Step M) w a w') (hw : I w) : I w' := by
  induction h with
  | done => exact hw
  | ask hs _ ih => exact ih (hI _ _ _ _ hs hw)

/-- The requests of a run are those in its record. -/
theorem aligned_of_runs (h : d.Runs (Step M) w a w') (hw : w.Aligned) : w'.Aligned :=
  keeps (fun _ _ _ _ hs => hs.aligned) h hw

theorem answered_of_runs (h : d.Runs (Step .serving) w a w') (hw : Peer.Answered w.1.log) :
    Peer.Answered w'.1.log :=
  keeps (I := fun w => Peer.Answered w.1.log) (fun _ _ _ _ hs => hs.answered) h hw

/-- What holds of every run with the server and what holds of every record. -/
theorem always {P : α → Peer → Prop} {Q : α → Wire → Prop}
    (hp : d.Always (Peer.Step M) w.1 P) (hq : d.Always Wire.Step w.2 Q) :
    d.Always (Step M) w fun a w' => P a w'.1 ∧ Q a w'.2 :=
  Dialogue.Always.both hp hq

end Tapped

end NineP
