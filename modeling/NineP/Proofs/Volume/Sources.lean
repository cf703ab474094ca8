import NineP.Proofs.Volume.Refusals

/-!
# Where walks start

A server walks from a fid only as long as that has not been opened. A directory is
read through a clone, and the fids on the way through a path are never opened, so that
walks are from fids that have not been opened. There is one exception: a regular file
is opened in place, and a path that is relative to it is walked from its own fid.

* `Transcript.Disciplined.not_named`: what was asked for since then was not asked for
  before;
* `Visit.Tidy.treads`: where the walks of one deed start;
* `Volume.walks_from_unopened`: where all walks start, from mounting on.
-/

namespace NineP

namespace Transcript

variable {later earlier : Transcript} {fid : UInt32}

theorem tried_append (later earlier : Transcript) :
    tried (later ++ earlier) = later.tried ++ earlier.tried :=
  List.filterMap_append

theorem Disciplined.of_append (h : Disciplined (later ++ earlier)) : earlier.Disciplined := by
  induction later with
  | nil => exact h
  | cons entry later ih => exact ih h.2

/-- A fid that is asked for was never asked for before. -/
theorem Disciplined.not_named (h : Disciplined (later ++ earlier)) (hf : fid ∈ later.named) :
    fid ∉ earlier.named := by
  induction later with
  | nil => cases hf
  | cons entry later ih =>
    obtain ⟨request, answer⟩ := entry
    rw [named_cons, List.mem_append, Option.mem_toList] at hf
    rcases hf with hf | hf
    · have hfresh : fid ∉ named (later ++ earlier) := (h.1.fresh fid hf).1
      rw [named, List.filterMap_append] at hfresh
      exact fun he => hfresh (List.mem_append_right _ he)
    · exact ih h.2 hf

end Transcript

theorem Wire.transcript_append (later earlier : Wire) :
    transcript (later ++ earlier) = later.transcript ++ earlier.transcript :=
  List.filterMap_append

namespace Visit

variable {config : Config} {shut more : List UInt32} {visit visit' : Visit} {log log' : Wire}
  {deed : Volume.Deed} {h : Handle} {origin : UInt32}

/-- A path that is relative to a regular file is opened, and this is the file's own
fid. -/
def Beside (visit : Visit) (deed : Volume.Deed) (fid : UInt32) : Prop :=
  ∃ place path h, deed = .act (.use place (.openPath path)) ∧ Path.isAbsolute path = false ∧
    visit.handles[place]? = some h ∧ h.kind = .regular ∧ h.location.fid = fid

namespace Tidy

theorem own_mem (hv : visit.Tidy shut log) (hh : h ∈ visit.handles) (hk : h.kind ≠ .regular) :
    h.location.fid ∈ shut := by
  refine (hv.handles h hh).unopened ?_
  rw [Handle.shut, if_neg hk]
  exact List.mem_singleton.2 rfl

/-- What a path is walked from is never opened, unless it is a regular file. -/
theorem origin_mem (hv : visit.Tidy shut log) (hroot : visit.volume.root.fid ∈ shut)
    (ho : visit.origin? deed = some origin) : origin ∈ shut ∨ visit.Beside deed origin := by
  have root (hr : some visit.volume.root.fid = some origin) : origin ∈ shut :=
    Option.some.inj hr ▸ hroot
  cases deed with
  | act action =>
    cases action with
    | openRoot => exact .inl (root ho)
    | openPath path => exact .inl (root ho)
    | fsInfo => cases ho
    | use place action =>
      cases action with
      | openPath path =>
        obtain ⟨h, hh, rfl⟩ := Option.map_eq_some_iff.1 ho
        have hmem := List.mem_of_getElem? hh
        rw [Session.pathOrigin]
        by_cases ha : Path.isAbsolute path = true
        · rw [if_pos ha, (hv.handles h hmem).root]
          exact .inl hroot
        · rw [if_neg ha]
          by_cases hk : h.kind = .regular
          · exact .inr ⟨place, path, h, rfl, Bool.not_eq_true _ ▸ ha, hh, hk, rfl⟩
          · exact .inl (hv.own_mem hmem hk)
      | _ => cases ho
  | _ => cases ho

/-- The walks of a deed are from fids that the client has not tried to open, but for one
that is beside a regular file. -/
theorem treads (hv : visit.Tidy shut log) (hroot : visit.volume.root.fid ∈ shut)
    (hp : visit.Performed deed log visit' log') (hv' : visit'.Tidy more log')
    (hmore : shut ⊆ more) (hfew : log'.transcript.named.length + visit'.idle < fidSupply) :
    ∃ sent, log' = sent ++ log ∧ sent.Treads fun fid earlier =>
      fid ∉ (Wire.transcript (earlier ++ log)).tried ∨ earlier = [] ∧ visit.Beside deed fid := by
  obtain ⟨sent, rfl, hsent, -⟩ := hp.sent
  obtain ⟨hledger, hholding⟩ := hv'.custody.resolve_left (Nat.not_le.2 hfew)
  refine ⟨sent, rfl, hsent.mono fun fid earlier hsuffix hsource => ?_⟩
  obtain ⟨later, rfl⟩ := hsuffix
  have hdisciplined := hledger.disciplined.2
  rw [List.append_assoc, Wire.transcript_append] at hdisciplined hholding
  have unopened (hf : fid ∈ shut) : fid ∉ (Wire.transcript (earlier ++ log)).tried := by
    have huntried := (hholding.untried fid (hmore hf)).2
    rw [Transcript.tried_append] at huntried
    exact fun ht => huntried (List.mem_append_right _ ht)
  rcases hsource with ⟨place, action, h, rfl, hh, hk, rfl⟩ | ⟨origin, ho, hnone, hway⟩
  · exact .inl (unopened (hv.own_mem (List.mem_of_getElem? hh) (by rw [hk]; decide)))
  rcases hway with ⟨rfl, rfl⟩ | hnamed
  · exact (hv.origin_mem hroot ho).imp unopened fun hb => ⟨rfl, hb⟩
  · -- It was asked for on the way, and nothing has been opened since then.
    have hrest := hdisciplined.of_append
    rw [Wire.transcript_append] at hrest
    rw [Wire.transcript_append, Transcript.tried_append, hnone, List.nil_append]
    exact .inl fun ht => hrest.not_named hnamed (hrest.of_append.tried_subset_named ht)

end Tidy

end Visit

/-! ## Mounting -/

/-- An operation that is no walk adds none to the record. -/
theorem Session.Query.always_walkless {α : Type} {s : Session} {log : Wire} (op : Query α)
    (hc : (op.body s).CountsHold) (hop : ∀ fid new names, (op.body s).known ≠ .twalk fid new names)
    (hlog : ∀ entry ∈ log, Wire.WalksFrom (fun _ => False) entry) :
    Client.Always Wire.Step op.perform s log fun _ _ log' =>
      ∀ entry ∈ log', Wire.WalksFrom (fun _ => False) entry := by
  refine (always_told hc).mono fun r t log' ⟨_, htold⟩ => ?_
  cases htold with
  | unsent => exact hlog
  | sent he =>
    refine List.forall_mem_cons.2 ⟨fun fid new names answer hwalk => ?_, hlog⟩
    exact hop fid new names (congrArg Prod.fst (Option.some.inj (he.symm.trans hwalk)))

namespace Volume

/-- Nothing is walked to mount a volume. -/
theorem always_mount_walkless (config : Config) :
    (mount config).Always Wire.Step [] fun _ log =>
      ∀ entry ∈ log, Wire.WalksFrom (fun _ => False) entry := by
  have none : ∀ entry ∈ ([] : Wire), Wire.WalksFrom (fun _ => False) entry :=
    fun _ h => absurd h List.not_mem_nil
  refine always_mount_recorded (fun _ => none) fun _ => ?_
  let version : Session.Query UInt32 := .negotiate config.msize
  let op : Session.Query (UInt32 × Qid) := .attach config.uname config.aname
  have hversion := version.always_walkless (s := { timeout := config.timeout }) trivial
    (fun _ _ _ h => by cases h) none
  refine hversion.bind (fun _ t log h => ?_) fun _ _ _ h => h
  have hattach := op.always_walkless (s := t) trivial (fun _ _ _ h => by cases h) h
  exact hattach.bind (fun _ _ _ h => .pure h) fun _ _ _ h => h

end Volume

namespace Visit

variable {config : Config} {visit : Visit} {log : Wire}

namespace Reached

/-- The fid of the root was never opened. -/
theorem tidy (h : Reached config true visit log) :
    ∃ shut, visit.volume.root.fid ∈ shut ∧ visit.Tidy shut log := by
  generalize hm : true = mounted at h
  induction h with
  | @mounted volume session log hrun =>
    have hcustody : Custody [volume.root.fid] [] [volume.root.fid] 0 session log :=
      Custody.mount config _ _ hrun
    exact ⟨[volume.root.fid], List.mem_singleton.2 rfl, fun h hh => absurd hh List.not_mem_nil,
      hcustody⟩
  | performed hreached hrun ih =>
    obtain ⟨shut, hroot, hv⟩ := ih hm
    obtain ⟨more, hmore, hv'⟩ := hv.perform _ _ hrun
    have hvolume := (hreached.ready.perform _ _ hrun).volume
    exact ⟨more, hmore (hvolume ▸ hroot), hv'⟩
  | unmounted => cases hm

end Reached

/-- Beside a regular file a path was opened when the record was no more than this, and
the walk was from the file's own fid. -/
def OpenedBeside (config : Config) (log : Wire) (fid : UInt32) (earlier : Wire) : Prop :=
  ∃ visit deed visit' log', Reached config true visit earlier ∧ visit.Beside deed fid ∧
    (visit.perform deed).Runs Wire.Step earlier visit' log' ∧ log' <:+ log

/-- Whatever is done, the walks are from fids that the client has not tried to open, but
for those beside a regular file. -/
theorem Reached.treads (h : Reached config true visit log)
    (hfew : log.transcript.named.length + visit.idle < fidSupply) :
    log.Treads fun fid earlier =>
      fid ∉ earlier.transcript.tried ∨ OpenedBeside config log fid earlier := by
  generalize hm : true = mounted at h
  induction h with
  | @mounted volume session log hrun =>
    have hnone := Volume.always_mount_walkless config _ _ hrun
    exact (Wire.Treads.of_forall hnone).mono fun _ _ _ => False.elim
  | @performed mounted visit visit' log log' deed hreached hrun ih =>
    subst hm
    obtain ⟨shut, hroot, hv⟩ := hreached.tidy
    obtain ⟨more, hmore, hv'⟩ := hv.perform _ _ hrun
    have hp := hreached.ready.perform _ _ hrun
    obtain ⟨sent, rfl, hsent⟩ := hv.treads hroot hp hv' hmore hfew
    have hlen : log.transcript.named.length ≤ (Wire.transcript (sent ++ log)).named.length := by
      rw [Wire.transcript_append, Transcript.named, Transcript.named, List.filterMap_append,
        List.length_append]
      exact Nat.le_add_left ..
    have hfew' : log.transcript.named.length + visit.idle < fidSupply :=
      Nat.lt_of_le_of_lt (Nat.add_le_add hlen hp.idle) hfew
    have hlog := (ih hfew' rfl).mono fun fid earlier _ h => h.imp_right
      fun ⟨before, deed, after, log', hbefore, hbeside, hafter, hsuffix⟩ =>
        (⟨before, deed, after, log', hbefore, hbeside, hafter,
          hsuffix.trans (List.suffix_append ..)⟩ : OpenedBeside config (sent ++ log) fid earlier)
    refine hlog.append hsent fun fid earlier h => h.imp_right fun ⟨hnil, hbeside⟩ => ?_
    subst hnil
    exact ⟨visit, deed, visit', sent ++ log, hreached, hbeside, hrun, List.suffix_refl _⟩
  | unmounted => cases hm

end Visit

namespace Volume

/-- From mounting on, whatever is done and whatever the server replies, each request can
be read, and no walk is from a fid that the client has tried to open, unless a path that
is relative to a handle on a regular file is opened, and this is the handle's own fid. So
the own fid of each handle is established, and it has been opened if and only if it is
that of a regular file. -/
theorem walks_from_unopened {config : Config} {visit : Visit} {log : Wire}
    (hv : Visit.Reached config true visit log)
    (hfew : log.transcript.named.length + visit.idle < 2 ^ 32 - 2) :
    (∀ entry ∈ log, (Wire.exchanged? entry).isSome) ∧
    (log.Treads fun fid earlier =>
      fid ∉ earlier.transcript.tried ∨ Visit.OpenedBeside config log fid earlier) ∧
    ∀ h ∈ visit.handles, h.location.fid ∈ log.transcript.established ∧
      (h.location.fid ∈ log.transcript.opened ↔ h.kind = .regular) := by
  obtain ⟨shut, -, htidy⟩ := hv.tidy
  obtain ⟨hledger, hholding⟩ := htidy.custody.resolve_left (Nat.not_le.2 hfew)
  refine ⟨hledger.disciplined.1, hv.treads hfew, fun h hh => ?_⟩
  refine ⟨hholding.established (Visit.mem_fids_of_mem hh), fun ho => ?_, fun hk => ?_⟩
  · by_contra hk
    have huntried := (hholding.untried _ (htidy.own_mem hh hk)).2
    exact huntried (Transcript.opened_subset_tried _ ho)
  · have hio := (htidy.handles h hh).settled.regular hk
    exact hholding.opened (Visit.mem_opened.2 ⟨h, hh, hio⟩)

/-- The own fid of a directory that has been read has not been opened, and its clone
has. -/
theorem walks_from_unopened_after_reading :
    Visit.Reached empty.config true emptyVisit emptyLog ∧
      3 ∈ (Wire.transcript emptyLog).opened ∧ 2 ∉ (Wire.transcript emptyLog).opened := by
  have hreached : Visit.Reached empty.config true emptyVisit emptyLog :=
    (((Visit.Reached.mounted heard_mount).performed heard_openRoot).performed
      heard_readEntry).performed heard_openPath
  obtain ⟨-, -, hhandles⟩ := walks_from_unopened hreached (by decide)
  refine ⟨hreached, by decide, fun ho => ?_⟩
  exact absurd ((hhandles emptyRootRead (List.mem_singleton.2 rfl)).2.1 ho) (by decide)

/-! ## Regular files, and fids that are handed out again -/

/-- The identity of a regular file. -/
def plainFile : Qid := { path := 2 }

/-- A server that grants a regular file and opens it. -/
def fileServer : Scripted where
  replies := [{ bytes := frameOf ⟨1, .rwalk [plainFile]⟩ },
    { bytes := frameOf ⟨1, .rlopen plainFile 0⟩ }]

/-- What there is once a file has been opened, and what has gone over the wire. -/
def fileOpened : Visit × Wire :=
  Scripted.recorded (narrowVisit.perform (.act (.openPath "f"))) fileServer narrowLog

theorem reached_fileOpened : Visit.Reached narrow.config true fileOpened.1 fileOpened.2 :=
  reached_narrow.performed (Scripted.runs_recorded ..)

end Volume

/-- The fids that are left are taken, until the count comes round. -/
theorem FidSource.comes_round {s : FidSource} (hs : 0 < s.next.toNat) :
    ∃ n, (fun s : FidSource => s.take.2)^[n] s = { next := 2 } := by
  have ahead (n : Nat) (hn : s.next.toNat + n < 2 ^ 32) :
      ((fun s : FidSource => s.take.2)^[n] s).next.toNat = s.next.toNat + n := by
    induction n with
    | zero => rfl
    | succ n ih =>
      have ih := ih (by omega)
      rw [Function.iterate_succ_apply', (toNat_take_of_lt (by omega) (by omega)).2, ih]
      rfl
  have hlast := ahead (2 ^ 32 - 1 - s.next.toNat) (by have := s.next.toNat_lt; omega)
  refine ⟨2 ^ 32 - 1 - s.next.toNat + 1, ?_⟩
  rw [Function.iterate_succ_apply']
  generalize (fun s : FidSource => s.take.2)^[2 ^ 32 - 1 - s.next.toNat] s = last at hlast
  have hnone : last = { next := noFid } := by
    obtain ⟨next⟩ := last
    refine congrArg FidSource.mk (UInt32.toNat_inj.1 (hlast.trans ?_))
    have hbound := s.next.toNat_lt
    show s.next.toNat + (2 ^ 32 - 1 - s.next.toNat) = 2 ^ 32 - 1
    omega
  rw [hnone]
  rfl

/-- A path of one name that no walk is sent for takes a fid all the same. -/
theorem Session.always_unresolved {s : Session} {log : Wire} {root : Location} {path name : String}
    (hplan : Path.plan path true = .ok ⟨false, [name]⟩) (hup : (name == Path.parent) = false)
    (hp : passable s.msize name = false) :
    Client.Always Wire.Step (resolve root root path) s log fun r t log' =>
      t = { s with fids := s.fids.take.2 } ∧ log' = log ∧ ∃ e, r = .error e := by
  rw [resolve_of_plan hplan]
  show Client.Always _ (if (name == Path.parent && root.qid.sameObject root.qid) = true then _
    else _) _ _ _
  rw [hup, Bool.false_and, if_neg Bool.false_ne_true]
  refine Client.Always.freshFid_bind (Query.always_stepped.attempt.bind_of_yields ?_)
  rintro step t log' ⟨rfl, ⟨hp', -⟩ | ⟨-, rfl, e, rfl⟩⟩
  · cases hp.symm.trans hp'
  · show Client.Always _ (Pure.pure () >>= fun _ => throw e) _ _ _
    rw [pure_bind]
    exact .throw ⟨rfl, rfl, e, rfl⟩

namespace Visit

variable {config : Config} {visit : Visit} {log : Wire}

set_option maxRecDepth 4096 in
/-- A fid may be taken without anything being sent. -/
theorem Reached.take (hv : Reached config true visit log) (hm : visit.session.msize = 256) :
    ∃ visit', Reached config true visit' log ∧ visit'.volume = visit.volume ∧
      visit'.session = { visit.session with fids := visit.session.fids.take.2 } := by
  have hplan : Path.plan Volume.longName true = .ok ⟨false, [Volume.longName]⟩ := by
    have htext : Volume.longName.toList = List.replicate 238 'b' := String.toList_ofList
    have hsplit : (Text.splitAll Path.isSeparator (List.replicate 238 'b')).filter Path.isName =
        [List.replicate 238 'b'] := by decide
    rw [Path.plan, Path.isAbsolute, Path.components, htext, hsplit]
    decide
  have hp : Session.passable visit.session.msize Volume.longName = false := by
    rw [hm]
    decide
  have hopen : Client.Always Wire.Step (visit.volume.openPath Volume.longName) visit.session log
      fun r t log' => t = { visit.session with fids := visit.session.fids.take.2 } ∧ log' = log ∧
        ∃ e, r = .error e := by
    refine (Session.always_unresolved hplan (by decide) hp).bind (fun _ t log' h => ?_)
      fun e t log' h => ⟨h.1, h.2.1, e, rfl⟩
    obtain ⟨-, -, e, he⟩ := h
    cases he
  have hdeed : Dialogue.Always Wire.Step (visit.perform (.act (.openPath Volume.longName))) log
      fun visit' log' => visit'.volume = visit.volume ∧
        visit'.session = { visit.session with fids := visit.session.fids.take.2 } ∧
        log' = log := by
    refine Dialogue.Always.bind hopen fun rs log' h => ?_
    obtain ⟨r, session⟩ := rs
    obtain ⟨ht, hlog, e, hr⟩ := h
    obtain rfl : r = .error e := hr
    exact .done ⟨rfl, ht, hlog⟩
  obtain ⟨visit', log', hrun⟩ := Dialogue.Runs.total Wire.Step.total _ log
  obtain ⟨hvolume, hsession, rfl⟩ := hdeed visit' log' hrun
  exact ⟨visit', hv.performed hrun, hvolume, hsession⟩

/-- The fids may come round. -/
theorem Reached.comes_round (hv : Reached config true visit log)
    (hm : visit.session.msize = 256) (hnext : 0 < visit.session.fids.next.toNat) :
    ∃ visit', Reached config true visit' log ∧ visit'.volume = visit.volume ∧
      visit'.session = { visit.session with fids := { next := 2 } } := by
  have ahead (n : Nat) : ∃ visit', Reached config true visit' log ∧
      visit'.volume = visit.volume ∧ visit'.session =
        { visit.session with fids := (fun s : FidSource => s.take.2)^[n] visit.session.fids } := by
    induction n with
    | zero => exact ⟨visit, hv, rfl, rfl⟩
    | succ n ih =>
      obtain ⟨before, hbefore, hvolume, hsession⟩ := ih
      obtain ⟨visit', hv', hvolume', hsession'⟩ := hbefore.take (by rw [hsession]; exact hm)
      refine ⟨visit', hv', hvolume'.trans hvolume, ?_⟩
      rw [hsession', hsession, Function.iterate_succ_apply']
  obtain ⟨n, hn⟩ := FidSource.comes_round hnext
  exact hn ▸ ahead n

/-- A deed may walk from a fid that has been opened. -/
def WalksOpened (visit : Visit) (deed : Volume.Deed) (log : Wire) : Prop :=
  ∃ visit' sent, (visit.perform deed).Runs Wire.Step log visit' (sent ++ log) ∧
    ¬ sent.Treads fun fid earlier => fid ∉ (Wire.transcript (earlier ++ log)).opened

end Visit

namespace Volume

/-- A server that finds nothing. -/
def absent : Scripted where
  replies := [{ bytes := frameOf ⟨1, .rlerror 2⟩ }]

/-- A server that finds a directory, but nothing in it. -/
def emptied : Scripted where
  replies := [{ bytes := frameOf ⟨1, .rwalk [emptyDirectory]⟩ },
    { bytes := frameOf ⟨1, .rlerror 2⟩ }, { bytes := frameOf ⟨1, .rclunk⟩ }]

/-- What is sent for a path beside the file. -/
def besideFile : Wire := [(frameOf ⟨1, .twalk 2 3 ["x"]⟩, frameOf ⟨1, .rlerror 2⟩)]

/-- A walk to a directory is granted. -/
def toDirectory : Bytes × Bytes :=
  (frameOf ⟨1, .twalk 1 2 ["a"]⟩, frameOf ⟨1, .rwalk [emptyDirectory]⟩)

/-- What is sent for a path from the root, once the fids have come round. -/
def pastFile : Wire :=
  [(frameOf ⟨1, .tclunk 2⟩, frameOf ⟨1, .rclunk⟩),
    (frameOf ⟨1, .twalk 2 3 ["b"]⟩, frameOf ⟨1, .rlerror 2⟩), toDirectory]

theorem heard_besideFile : ∃ visit',
    (fileOpened.1.perform (.act (.use 0 (.openPath "x")))).Runs Wire.Step fileOpened.2 visit'
      (besideFile ++ fileOpened.2) := by
  have hrun := Scripted.runs_recorded (fileOpened.1.perform (.act (.use 0 (.openPath "x"))))
    absent fileOpened.2
  rw [show (Scripted.recorded (fileOpened.1.perform (.act (.use 0 (.openPath "x")))) absent
    fileOpened.2).2 = besideFile ++ fileOpened.2 by decide +kernel] at hrun
  exact ⟨_, hrun⟩

/-- The session once the fids have come round to the one that is next. -/
def comeRound (next : UInt32) : Session := { narrowVisit.session with fids := { next } }

theorem heard_pastFile {visit : Visit} (hv : visit.volume = narrow)
    (hs : visit.session = comeRound 2) : ∃ visit',
    (visit.perform (.act (.openPath "a/b"))).Runs Wire.Step fileOpened.2 visit'
      (pastFile ++ fileOpened.2) := by
  have hrun := Scripted.runs_recorded ((narrow.openPath "a/b").runIn (comeRound 2)) emptied
    fileOpened.2
  rw [show Scripted.recorded ((narrow.openPath "a/b").runIn (comeRound 2)) emptied fileOpened.2 =
    ((.error (.server .notFound), comeRound 4), pastFile ++ fileOpened.2) by decide +kernel] at hrun
  rw [← hv, ← hs] at hrun
  let visit' := visit.record (.error (.server .notFound) : Except Error Handle) (comeRound 4)
    visit.handles
  exact ⟨visit', Dialogue.runs_bind.2 ⟨_, _, hrun, .done _ _⟩⟩

/-- A path beside a regular file is walked from the file's fid, which is open. Once
the fids have come round, so may any path be. -/
theorem walked_from_opened :
    (∃ visit log, Visit.Reached narrow.config true visit log ∧
      log.transcript.named.length + visit.idle < 2 ^ 32 - 2 ∧
      visit.WalksOpened (.act (.use 0 (.openPath "x"))) log) ∧
    ∃ visit log, Visit.Reached narrow.config true visit log ∧
      visit.WalksOpened (.act (.openPath "a/b")) log := by
  constructor
  · obtain ⟨visit', hrun⟩ := heard_besideFile
    have hfew : (Wire.transcript fileOpened.2).named.length + fileOpened.1.idle < 2 ^ 32 - 2 := by
      decide +kernel
    have hwalk : Wire.exchanged? (frameOf ⟨1, .twalk 2 3 ["x"]⟩, frameOf ⟨1, .rlerror 2⟩) =
        some (.twalk 2 3 ["x"], some (.rlerror 2)) := by decide +kernel
    have hopened : 2 ∈ (Wire.transcript ([] ++ fileOpened.2)).opened := by decide +kernel
    exact ⟨fileOpened.1, fileOpened.2, reached_fileOpened, hfew, visit', besideFile, hrun,
      fun h => h.1 _ _ _ _ hwalk hopened⟩
  · have hmsize : fileOpened.1.session.msize = 256 := by decide +kernel
    have hnext : 0 < fileOpened.1.session.fids.next.toNat := by decide +kernel
    have hround : { fileOpened.1.session with fids := { next := 2 } } = comeRound 2 := by
      decide +kernel
    have hnarrow : fileOpened.1.volume = narrow := by decide +kernel
    obtain ⟨visit, hv, hvolume, hsession⟩ := reached_fileOpened.comes_round hmsize hnext
    obtain ⟨visit', hrun⟩ := heard_pastFile (hvolume.trans hnarrow) (hsession.trans hround)
    have hwalk : Wire.exchanged? (frameOf ⟨1, .twalk 2 3 ["b"]⟩, frameOf ⟨1, .rlerror 2⟩) =
        some (.twalk 2 3 ["b"], some (.rlerror 2)) := by decide +kernel
    have hopened : 2 ∈ (Wire.transcript ([toDirectory] ++ fileOpened.2)).opened := by
      decide +kernel
    exact ⟨visit, fileOpened.2, hv, visit', pastFile, hrun, fun h => h.2.1 _ _ _ _ hwalk hopened⟩

end Volume

end NineP
