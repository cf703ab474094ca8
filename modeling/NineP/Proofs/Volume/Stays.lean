import NineP.Proofs.Volume.Keeping
import NineP.Proofs.Volume.Visits

/-!
# Stays on a volume

A client mounts a volume, asks of it and of its handles whatever may be asked, in
any order, and unmounts it, while the server replies as it likes and the stream
fails when it likes (`Volume.stay`). It keeps to the discipline of fids all the
while:

* `Visit.Tidy`: the fids of the root and of the handles are in custody;
* `Visit.Tidy.perform`: whatever is done keeps them there;
* `Volume.fids_disciplined`: so every request is proper after the ones before it.
-/

namespace NineP

/-- Whatever may be done with a volume, to write to it included. -/
inductive Volume.Deed where
  | act (action : Action)
  | write (place bytes : Nat)
  | flush (place : Nat)
  | delete (place : Nat)
  deriving DecidableEq, Repr

/-- A handle on an object below a root, whose own fid is in `shut` if it is never to
be opened. -/
structure Handle.InOrder (root : Location) (shut : List UInt32) (h : Handle) : Prop where
  root : h.root = root
  settled : h.Settled
  unopened : h.shut ⊆ shut

namespace Visit

/-- Ask something of the handle in a place, if there is one. -/
def workIn {m : Type → Type} [Monad m] {_ : Machine m} (visit : Visit) (place : Nat)
    (x : HandleClient α) : m Visit :=
  match visit.handles[place]? with
  | some h => visit.work place h x
  | none => pure visit

section

variable {m : Type → Type} [Monad m] [Machine m] [Relies m]

/-- Do something with the volume. -/
def perform (visit : Visit) : Volume.Deed → m Visit
  | .act action => visit.act action
  | .write place bytes => visit.workIn place (Handle.write bytes)
  | .flush place => visit.workIn place Handle.flush
  | .delete place => visit.workIn place Handle.delete

/-- Unmount the volume, whatever is open. -/
def unmount (visit : Visit) : m Visit := visit.leave visit.volume.unmount visit.handles

end

/-- The fids that have been opened. -/
def opened (visit : Visit) : List UInt32 := visit.handles.flatMap (·.ioFid.toList)

/-- The fids of the root and of the handles are in custody. None of those in
`shut` was ever opened, and the own fids of directories and links are there. -/
structure Tidy (shut : List UInt32) (visit : Visit) (log : Wire) : Prop where
  handles : ∀ h ∈ visit.handles, h.InOrder visit.volume.root shut
  custody : Custody visit.fids visit.opened shut visit.idle visit.session log

/-- As `Tidy`, with more fids that were never opened. -/
def Tidied (shut : List UInt32) (visit : Visit) (log : Wire) : Prop :=
  ∃ more, shut ⊆ more ∧ visit.Tidy more log

end Visit

/-- Mount a volume, do something with it, and something else after that, and
unmount it. The result is what there was in between and what is left in the
end. -/
def Volume.stay {m : Type → Type} [Monad m] [Machine m] [Relies m] (config : Config)
    (before after : List Deed) : Exchange (Visit × Visit) := do
  let (volume, session) ← mount config
  let start : Visit := { volume, session }
  let early ← liftM (before.foldlM Visit.perform start)
  let late ← liftM (after.foldlM Visit.perform early)
  let last ← liftM late.unmount
  pure (early, last)

namespace Visit

variable {shut : List UInt32} {visit : Visit} {log : Wire} {place : Nat} {h : Handle}

theorem mem_opened {fid : UInt32} :
    fid ∈ visit.opened ↔ ∃ h ∈ visit.handles, h.ioFid = some fid := by
  simp only [opened, List.mem_flatMap, Option.mem_toList]

theorem mem_fids_of_mem (hh : h ∈ visit.handles) : h.location.fid ∈ visit.fids :=
  List.mem_cons_of_mem _ (List.mem_flatMap.2 ⟨h, hh, List.mem_cons_self ..⟩)

namespace Tidy

theorem enter {x : Client Handle} (hv : visit.Tidy shut log)
    (hx : x.Always Wire.Step visit.session log
      (Gained (Admitted visit.volume.root visit.fids visit.opened shut visit.idle)
        visit.fids visit.opened shut visit.idle)) :
    Dialogue.Always Wire.Step (visit.enter x) log (Tidied shut) := by
  refine Dialogue.Always.bind hx fun (r, session) log' hr => ?_
  cases r with
  | ok h =>
    have hr : Admitted visit.volume.root visit.fids visit.opened shut visit.idle h session log' := hr
    refine .done ⟨h.shut ++ shut, List.subset_append_right .., fun g hg => ?_, ?_⟩
    · rcases List.mem_append.1 hg with hg | hg
      · obtain ⟨hroot, hs, hshut⟩ := hv.handles g hg
        exact ⟨hroot, hs, List.subset_append_of_subset_right _ hshut⟩
      · rw [List.mem_singleton.1 hg]
        exact ⟨hr.root, hr.settled, List.subset_append_left ..⟩
    · rw [idle_record]
      refine Custody.weaken (hr.custody.perm (List.perm_append_comm.trans ?_))
        (List.Sublist.refl _) (fun fid hf => ?_) (List.Sublist.refl _)
      · show (visit.volume.root.fid :: (visit.handles.flatMap Handle.fids ++ h.fids)).Perm
          (visit.volume.root.fid :: (visit.handles ++ [h]).flatMap Handle.fids)
        rw [List.flatMap_append, List.flatMap_singleton]
      · obtain ⟨g, hg, hio⟩ := mem_opened.1 hf
        rcases List.mem_append.1 hg with hg | hg
        · exact List.mem_append_right _ (mem_opened.2 ⟨g, hg, hio⟩)
        · rw [List.mem_singleton.1 hg] at hio
          exact List.mem_append_left _ (Option.mem_toList.2 hio)
  | error e =>
    refine .done ⟨shut, List.Subset.refl _, hv.handles, ?_⟩
    rw [idle_record]
    exact hr

theorem leave {x : Client α} {handles : List Handle} (hs : ∀ h ∈ handles, h ∈ visit.handles)
    (hv : visit.Tidy shut log)
    (hx : x.Always Wire.Step visit.session log
      (Gained
        (fun _ => Custody (visit.volume.root.fid :: handles.flatMap Handle.fids) visit.opened shut
          visit.idle)
        (visit.volume.root.fid :: handles.flatMap Handle.fids) visit.opened shut visit.idle)) :
    Dialogue.Always Wire.Step (visit.leave x handles) log (Tidied shut) := by
  refine Dialogue.Always.bind hx fun (r, session) log' hr => .done ?_
  refine ⟨shut, List.Subset.refl _, fun h hh => hv.handles h (hs h hh), ?_⟩
  rw [idle_record]
  refine hr.custody.weaken (List.Sublist.refl _) (fun fid hf => ?_) (List.Sublist.refl _)
  obtain ⟨h, hh, hio⟩ := mem_opened.1 hf
  exact mem_opened.2 ⟨h, hs h hh, hio⟩

theorem work {x : HandleClient α} (hv : visit.Tidy shut log) (hh : visit.handles[place]? = some h)
    (hx : h.Settled →
      Custody (h.fids ++ visit.others place) (h.ioFid.toList ++ visit.opened) shut visit.idle
        visit.session log →
      x.Always Wire.Step h visit.session log
        (Minded h (visit.others place) visit.opened shut visit.idle)) :
    Dialogue.Always Wire.Step (visit.work place h x) log (Tidied shut) := by
  obtain ⟨hp, he⟩ := List.getElem?_eq_some_iff.1 hh
  have hmem := List.mem_of_getElem? hh
  obtain ⟨hroot, hs, hshut⟩ := hv.handles h hmem
  have hx := hx hs <| by
    refine Custody.weaken (hv.custody.perm (fids_perm hh)) (List.Sublist.refl _) (fun fid hf => ?_)
      (List.Sublist.refl _)
    rcases List.mem_append.1 hf with hf | hf
    · exact mem_opened.2 ⟨h, hmem, Option.mem_toList.1 hf⟩
    · exact hf
  refine Dialogue.Always.bind hx fun ((r, g), session) log' hg => .done ?_
  refine ⟨shut, List.Subset.refl _, fun g' hg' => ?_, ?_⟩
  · rcases List.mem_or_eq_of_mem_set hg' with hg' | rfl
    · exact hv.handles g' hg'
    · refine ⟨hg.root.trans hroot, hg.settled, ?_⟩
      rwa [Handle.shut, hg.kind, hg.fid]
  · rw [idle_record]
    refine Custody.weaken (hg.custody.perm (fids_set hp g).symm) (List.Sublist.refl _)
      (fun fid hf => ?_) (List.Sublist.refl _)
    obtain ⟨g', hg', hio⟩ := mem_opened.1 hf
    rcases List.mem_or_eq_of_mem_set hg' with hg' | rfl
    · exact List.mem_append_right _ (mem_opened.2 ⟨g', hg', hio⟩)
    · exact List.mem_append_left _ (Option.mem_toList.2 hio)

theorem actOn {action : Handle.Action} (hv : visit.Tidy shut log)
    (hh : visit.handles[place]? = some h) :
    Dialogue.Always Wire.Step (visit.actOn place h action) log (Tidied shut) := by
  have hmem := List.mem_of_getElem? hh
  have hown := mem_fids_of_mem hmem
  cases action with
  | openPath path =>
    have hroot := (hv.handles h hmem).root
    refine hv.enter ?_
    rw [← hroot]
    exact hv.custody.openPath (hroot ▸ List.mem_cons_self ..) hown
  | read room => exact hv.work hh Custody.read
  | readData wanted => exact hv.work hh Custody.readData
  | readEntry => exact hv.work hh Custody.readEntry
  | readLink room => exact hv.work hh Custody.readLink
  | linkTarget => exact hv.work hh Custody.linkTarget
  | getInfo => exact hv.work hh Custody.getInfo
  | fsInfo => exact hv.leave (fun _ h => h) (hv.custody.fsInfo hown)
  | setPosition position => exact hv.work hh Custody.setPosition
  | close =>
    refine hv.leave (fun _ h => List.mem_of_mem_eraseIdx h) ?_
    exact Custody.close (hv.handles h hmem).settled (hv.custody.perm (fids_perm hh))

theorem act {action : Volume.Action} (hv : visit.Tidy shut log) :
    Dialogue.Always Wire.Step (visit.act action) log (Tidied shut) := by
  have hroot : visit.volume.root.fid ∈ visit.fids := List.mem_cons_self ..
  cases action with
  | openRoot => exact hv.enter (hv.custody.resolve_establish hroot hroot)
  | openPath path => exact hv.enter (hv.custody.resolve_establish hroot hroot)
  | fsInfo => exact hv.leave (fun _ h => h) (hv.custody.fsInfo hroot)
  | use place action =>
    rw [Visit.act]
    cases hh : visit.handles[place]? with
    | some h => exact hv.actOn hh
    | none => exact .done ⟨shut, List.Subset.refl _, hv⟩

theorem workIn {x : HandleClient α} (hv : visit.Tidy shut log)
    (hx : ∀ h rest opened, h.Settled →
      Custody (h.fids ++ rest) (h.ioFid.toList ++ opened) shut visit.idle visit.session log →
      x.Always Wire.Step h visit.session log (Minded h rest opened shut visit.idle)) :
    Dialogue.Always Wire.Step (visit.workIn place x) log (Tidied shut) := by
  rw [Visit.workIn]
  cases hh : visit.handles[place]? with
  | some h => exact hv.work hh (hx h _ _)
  | none => exact .done ⟨shut, List.Subset.refl _, hv⟩

/-- What is done may fail at any point, and yet the client keeps to the
discipline. -/
theorem perform {deed : Volume.Deed} (hv : visit.Tidy shut log) :
    Dialogue.Always Wire.Step (visit.perform deed) log (Tidied shut) := by
  cases deed with
  | act action => exact hv.act
  | write place bytes =>
    exact hv.workIn fun h _ _ hs hb => .pure ⟨rfl, rfl, rfl, hs, hb⟩
  | flush place =>
    exact hv.workIn fun h _ _ hs hb => .pure ⟨rfl, rfl, rfl, hs, hb⟩
  | delete place =>
    exact hv.workIn fun h _ _ hs hb => .pure ⟨rfl, rfl, rfl, hs, hb⟩

theorem performs {deeds : List Volume.Deed} (hv : visit.Tidy shut log) :
    Dialogue.Always Wire.Step (deeds.foldlM Visit.perform visit) log (Tidied shut) := by
  induction deeds generalizing visit shut log with
  | nil => exact .done ⟨shut, List.Subset.refl _, hv⟩
  | cons deed deeds ih =>
    rw [List.foldlM_cons]
    refine .bind hv.perform fun visit' log' ⟨more, hmore, hv⟩ => ?_
    refine (ih hv).mono fun last log' ⟨most, hmost, hv⟩ => ?_
    exact ⟨most, List.Subset.trans hmore hmost, hv⟩

/-- Once the volume is unmounted only the fids of handles are left. -/
theorem unmount (hv : visit.Tidy shut log) :
    Dialogue.Always Wire.Step visit.unmount log fun last log' =>
      Custody (last.handles.flatMap Handle.fids) visit.opened shut last.idle last.session log' := by
  have hunmount : Client.Always Wire.Step visit.volume.unmount visit.session log
      (Gained (fun _ => Custody (visit.handles.flatMap Handle.fids) visit.opened shut visit.idle)
        (visit.handles.flatMap Handle.fids) visit.opened shut visit.idle) := by
    refine hv.custody.clunk.attempt.bind_of_yields fun clunked t log' hq => ?_
    refine Client.Always.shutdown.bind (fun _ u log' h => ?_) fun e u log' h => ?_
    · obtain ⟨rfl, rfl, -⟩ := h
      exact .lift hq.gained
    · obtain ⟨rfl, rfl, he⟩ := h
      exact .error hq.custody (Error.isUnsent_of_isMisuse (he e rfl))
  refine Dialogue.Always.bind hunmount fun (r, session) log' hr => .done ?_
  rw [idle_record]
  exact hr.custody

end Tidy

end Visit

/-! ## Mounting -/

/-- No request has been sent. -/
theorem Custody.start (timeout : Option UInt64) : Custody [] [] [] 0 { timeout } [] := by
  refine .inr ⟨⟨?_, rfl, ⟨fun _ h => absurd h List.not_mem_nil, trivial⟩,
    fun _ h => absurd h List.not_mem_nil⟩, ⟨List.nil_subset _, List.nodup_nil, List.nil_subset _,
    fun _ h => absurd h List.not_mem_nil, List.nodup_nil⟩⟩
  show (256 : UInt32) ≤ 8192
  decide

/-- What was sent was disciplined, unless the fids have run out. -/
theorem Custody.disciplined {held opened shut : List UInt32} {idle : Nat} {s : Session} {log : Wire}
    (h : Custody held opened shut idle s log) (n : Nat) :
    fidSupply ≤ log.transcript.named.length + (idle + n) ∨ log.Disciplined := by
  rcases h with h | h
  · exact .inl (by omega)
  · exact .inr h.1.disciplined

/-- After a result there is the gain, and after a failure what was sent was
disciplined, unless the fids have run out. -/
def Begun (gain : α → Wire → Prop) (r : Except Error α) (log : Wire) : Prop :=
  match r with
  | .ok a => gain a log
  | .error _ => fidSupply ≤ log.transcript.named.length + unsent r ∨ log.Disciplined

/-- An attach behind a handshake has its fid in custody. -/
theorem Custody.attachVolume (config : Config) :
    Client.Always Wire.Step (Volume.attach config) { timeout := config.timeout } [] fun r t log =>
      Begun (fun root => Custody [root.fid] [] [root.fid] 0 t) r log := by
  refine (Custody.start config.timeout).negotiate.bind (fun _ t log hq => ?_) fun e t log hq => ?_
  · refine hq.attach.bind (fun (fid, qid) u log hq => .pure hq) fun e u log hq => ?_
    have hq : Custody [] [] [] (0 + unsent (.error e)) u log := hq
    rw [Nat.zero_add] at hq
    exact hq.disciplined 0
  · have hout := hq.disciplined (unsent (.error e : Except Error Location))
    rwa [Nat.zero_add] at hout

/-- Once a volume is mounted the fid of its root is in custody. It is never to be
opened. -/
theorem Custody.mount (config : Config) :
    (Volume.mount config).Always Wire.Step []
      (Begun fun mounted =>
        Custody [mounted.1.root.fid] [] [mounted.1.root.fid] 0 mounted.2) := by
  have silent : Wire.Disciplined [] := ⟨fun _ h => absurd h List.not_mem_nil, trivial⟩
  have still {c : Call} {log : Wire} (hc : ∀ answer, log.record c answer = log) :
      Exchange.Always Wire.Step (Exchange.perform c) log fun _ log' => log' = log :=
    .perform fun answer log' h => h.2.trans (hc answer)
  rw [Volume.mount]
  cases hv : config.validate with
  | error e => exact .lift_bind_error rfl (.inr silent)
  | ok u =>
    refine .lift_bind_ok rfl ((still fun _ => rfl).bind (fun _ log h => ?_) fun _ log h => ?_)
    · subst h
      refine (still fun _ => rfl).bind (fun _ log h => ?_) fun _ log h => ?_
      · subst h
        refine .dialogue_bind (Custody.attachVolume config) fun attached log hq => ?_
        obtain ⟨attached, session⟩ := attached
        cases attached with
        | ok root => exact .pure hq
        | error e =>
          refine .dialogue_bind (still (c := .close) fun _ => rfl) fun _ log' h => .throw ?_
          rw [h]
          exact hq
      · exact .inr (h ▸ silent)
    · exact .inr (h ▸ silent)

namespace Volume

/-- The number of fids that have been taken: those that requests asked for, and
those taken for requests that were not sent. -/
def allotted (r : Except Error (Visit × Visit)) (log : Wire) : Nat :=
  log.transcript.named.length +
    match r with
    | .ok (_, last) => last.idle
    | .error e => unsent (.error e : Except Error Visit)

theorem always_stay (config : Config) (before after : List Deed) :
    (stay config before after).Always Wire.Step []
      (Begun fun visits log => ∃ held opened shut,
        Custody held opened shut visits.2.idle visits.2.session log ∧
          ∀ h ∈ visits.1.handles, h.shut ⊆ shut) := by
  refine (Custody.mount config).bind (fun (volume, session) log hq => ?_) fun e log hq => hq
  have hstart : Visit.Tidy [volume.root.fid] { volume, session } log :=
    ⟨fun h hh => absurd hh List.not_mem_nil, hq⟩
  refine .dialogue_bind hstart.performs fun early log ⟨_, _, hearly⟩ => ?_
  refine .dialogue_bind hearly.performs fun late log ⟨shut, hmore, hlate⟩ => ?_
  refine .dialogue_bind hlate.unmount fun last log hlast => .pure ⟨_, _, shut, hlast, ?_⟩
  exact fun h hh => List.Subset.trans (hearly.handles h hh).unopened hmore

/-- No fid has been taken that is not counted: the fids are taken in a row from
the first. -/
theorem next_eq_allotted {config : Config} {before after : List Deed} {early last : Visit}
    {log : Wire} (hrun : (stay config before after).run.Runs Wire.Step [] (.ok (early, last)) log)
    (hfew : allotted (.ok (early, last)) log < fidSupply) :
    last.session.fids.next.toNat = allotted (.ok (early, last)) log + 1 := by
  obtain ⟨_, _, _, hcustody, -⟩ := always_stay config before after _ log hrun
  exact (hcustody.resolve_left (Nat.not_le.2 hfew)).1.next

/-- Whatever the server replies and however the stream fails, the client keeps to
the discipline of fids from mounting to unmounting: every request is proper after
the ones before it. It never tries to open the own fid of a handle on a directory
or a link that it has had at any time. -/
theorem fids_disciplined {config : Config} {before after : List Deed}
    {r : Except Error (Visit × Visit)} {log : Wire}
    (hrun : (stay config before after).run.Runs Wire.Step [] r log)
    (hfew : allotted r log < 2 ^ 32 - 2) :
    log.Disciplined ∧
      ∀ early last, r = .ok (early, last) → ∀ h ∈ early.handles, h.kind ≠ .regular →
        h.location.fid ∉ log.transcript.tried := by
  have hstay := always_stay config before after r log hrun
  cases r with
  | error e => exact ⟨hstay.resolve_left (Nat.not_le.2 hfew), fun _ _ h => by cases h⟩
  | ok visits =>
    obtain ⟨early, last⟩ := visits
    obtain ⟨_, _, shut, hcustody, hshut⟩ := hstay
    obtain ⟨hledger, hholding⟩ := hcustody.resolve_left (Nat.not_le.2 hfew)
    refine ⟨hledger.disciplined, fun early' last' he h hh hk => ?_⟩
    obtain ⟨rfl, -⟩ := Prod.mk.inj (Except.ok.inj he)
    have hown : h.location.fid ∈ shut := hshut h hh <| by
      rw [Handle.shut, if_neg hk]
      exact List.mem_singleton.2 rfl
    exact (hholding.untried _ hown).2

/-! ## Reading a directory, missing a file and leaving -/

/-- The requests with what was received after each, the last first. -/
def leftLog : Wire :=
  (frameOf ⟨1, .tclunk 1⟩, frameOf ⟨1, .rclunk⟩) :: emptyLog

/-- What there is before the file is missed. -/
def earlyVisit : Visit := ⟨empty, emptySession 4, [emptyRootRead], [.ok (), .ok ()]⟩

/-- What is left once the volume is unmounted. -/
def lastVisit : Visit :=
  ⟨empty, emptySession 5, [emptyRootRead], [.ok (), .error (.server .notFound), .ok (), .ok ()]⟩

theorem heard_mount :
    (mount empty.config).run.Runs Wire.Step [] (.ok (empty, emptySession 2)) (emptyLog.drop 5) := by
  refine .ask (.done _ _ []) (.ask (.done _ _ []) (.ask (.done _ _ []) ?_))
  refine .ask (.done _ _ ((frameOf ⟨noTag, .rversion 8192 protocolVersion⟩).take 4)) ?_
  refine .ask (.done _ _ ((frameOf ⟨noTag, .rversion 8192 protocolVersion⟩).drop 4)) ?_
  refine .ask (.done _ _ []) (.ask (.done _ _ ((frameOf ⟨1, .rattach emptyDirectory⟩).take 4)) ?_)
  exact .ask (.done _ _ ((frameOf ⟨1, .rattach emptyDirectory⟩).drop 4)) (.done _ _)

theorem heard_openRoot :
    (Visit.perform ⟨empty, emptySession 2, [], []⟩ (.act .openRoot)).Runs Wire.Step
      (emptyLog.drop 5) ⟨empty, emptySession 3, [emptyRoot], [.ok ()]⟩ (emptyLog.drop 4) := by
  refine .ask (.done _ _ []) (.ask (.done _ _ ((frameOf ⟨1, .rwalk []⟩).take 4)) ?_)
  exact .ask (.done _ _ ((frameOf ⟨1, .rwalk []⟩).drop 4)) (.done _ _)

theorem heard_readEntry :
    (Visit.perform ⟨empty, emptySession 3, [emptyRoot], [.ok ()]⟩ (.act (.use 0 .readEntry))).Runs
      Wire.Step (emptyLog.drop 4) earlyVisit (emptyLog.drop 1) := by
  refine .ask (.done _ _ []) (.ask (.done _ _ ((frameOf ⟨1, .rwalk []⟩).take 4)) ?_)
  refine .ask (.done _ _ ((frameOf ⟨1, .rwalk []⟩).drop 4)) (.ask (.done _ _ []) ?_)
  refine .ask (.done _ _ ((frameOf ⟨1, .rlopen emptyDirectory 0⟩).take 4)) ?_
  refine .ask (.done _ _ ((frameOf ⟨1, .rlopen emptyDirectory 0⟩).drop 4)) (.ask (.done _ _ []) ?_)
  refine .ask (.done _ _ ((frameOf ⟨1, .rreaddir []⟩).take 4)) ?_
  exact .ask (.done _ _ ((frameOf ⟨1, .rreaddir []⟩).drop 4)) (.done _ _)

theorem heard_openPath :
    (earlyVisit.perform (.act (.openPath "f"))).Runs Wire.Step (emptyLog.drop 1) emptyVisit
      emptyLog := by
  refine .ask (.done _ _ []) (.ask (.done _ _ ((frameOf ⟨1, .rlerror 2⟩).take 4)) ?_)
  exact .ask (.done _ _ ((frameOf ⟨1, .rlerror 2⟩).drop 4)) (.done _ _)

theorem heard_unmount : emptyVisit.unmount.Runs Wire.Step emptyLog lastVisit leftLog := by
  refine .ask (.done _ _ []) (.ask (.done _ _ ((frameOf ⟨1, .rclunk⟩).take 4)) ?_)
  exact .ask (.done _ _ ((frameOf ⟨1, .rclunk⟩).drop 4)) (.ask (.done _ _ []) (.done _ _))

theorem heard_stay :
    (stay empty.config [.act .openRoot, .act (.use 0 .readEntry)]
      [.act (.openPath "f")]).run.Runs Wire.Step [] (.ok (earlyVisit, lastVisit)) leftLog := by
  refine Dialogue.runs_bind.2 ⟨_, _, heard_mount, ?_⟩
  refine Dialogue.runs_bind.2 ⟨.ok earlyVisit, emptyLog.drop 1, ?_, ?_⟩
  · refine Dialogue.runs_bind.2 ⟨earlyVisit, _, ?_, .done _ _⟩
    refine Dialogue.runs_bind.2 ⟨_, _, heard_openRoot, ?_⟩
    exact Dialogue.runs_bind.2 ⟨_, _, heard_readEntry, .done _ _⟩
  refine Dialogue.runs_bind.2 ⟨.ok emptyVisit, emptyLog, ?_, ?_⟩
  · refine Dialogue.runs_bind.2 ⟨emptyVisit, _, ?_, .done _ _⟩
    exact Dialogue.runs_bind.2 ⟨_, _, heard_openPath, .done _ _⟩
  refine Dialogue.runs_bind.2 ⟨.ok lastVisit, leftLog, ?_, .done _ _⟩
  exact Dialogue.runs_bind.2 ⟨lastVisit, _, heard_unmount, .done _ _⟩

/-- The directory was opened on its clone, and its own fid was not. -/
theorem disciplined_after_miss :
    3 ∈ (Wire.transcript leftLog).opened ∧ Wire.Disciplined leftLog ∧
      emptyRootRead.location.fid ∉ (Wire.transcript leftLog).tried := by
  have hfew : allotted (.ok (earlyVisit, lastVisit)) leftLog < 2 ^ 32 - 2 := by decide
  obtain ⟨hlog, hown⟩ := fids_disciplined heard_stay hfew
  refine ⟨by decide, hlog, hown earlyVisit lastVisit rfl emptyRootRead ?_ (by decide)⟩
  exact List.mem_singleton.2 rfl

end Volume

end NineP
