import NineP.Proofs.Volume.Conduct
import NineP.Proofs.World.Scripted

/-!
# What is sent before a mistake is refused

A mistake of the caller is refused before anything is sent for it, except in two
cases: a mount learns only from the handshake how long an attach may be, and a path is
walked name by name until there is one that no walk is sent for. How much has been
sent by then is known beforehand:

* `Session.attachable`: the names that an attach is sent for;
* `Volume.always_mount_refused`: a mount that is refused has sent nothing, or the
  handshake alone;
* `Volume.sent_before_refusal`: the same of all that may be done.
-/

namespace NineP

namespace Session

/-- The bytes of an attach, those of its two names aside. -/
def attachOverhead : Nat := 19

/-- Whether an attach by these names is sent if messages may have so many bytes. -/
def attachable (msize : UInt32) (uname aname : String) : Bool :=
  uname.utf8ByteSize ≤ Codec.maxTextSize && aname.utf8ByteSize ≤ Codec.maxTextSize &&
    attachOverhead + uname.utf8ByteSize + aname.utf8ByteSize ≤ msize.toNat

/-- The attaches that are sent are those by such names. -/
theorem Query.sendable_attach_iff {s : Session} {uname aname : String} :
    (attach uname aname).Sendable s ↔ attachable s.msize uname aname = true := by
  have hsize : 4 + (Message.mk (attach uname aname).tag ((attach uname aname).body s)).size =
      attachOverhead + uname.utf8ByteSize + aname.utf8ByteSize := by
    show 4 + (1 + 2 + (4 + 4 + (2 + uname.utf8ByteSize) + (2 + aname.utf8ByteSize))) =
      19 + uname.utf8ByteSize + aname.utf8ByteSize
    omega
  rw [attachable, Bool.and_eq_true, Bool.and_eq_true, decide_eq_true_iff, decide_eq_true_iff,
    decide_eq_true_iff]
  constructor
  · intro h
    have hfits := h.size
    rw [hsize] at hfits
    have huname := h.texts uname (List.mem_cons_self ..)
    have haname := h.texts aname (List.mem_cons_of_mem _ (List.mem_cons_self ..))
    exact ⟨⟨huname, haname⟩, max_self s.msize ▸ hfits⟩
  · intro ⟨⟨huname, haname⟩, hfits⟩
    refine ⟨rfl, List.forall_mem_cons.2 ⟨huname, List.forall_mem_singleton.2 haname⟩, ?_⟩
    rw [hsize]
    show _ ≤ (max s.msize s.msize).toNat
    rwa [max_self]

end Session

namespace Volume

/-- The handshake has been answered, and an attach by the configured names does not
fit the message size that was agreed on. Nothing but the handshake was sent. -/
def Unattachable (config : Config) (log : Wire) : Prop :=
  ∃ request heard server, log = [(request, heard)] ∧
    Frame.decode request = .ok ⟨noTag, .tversion config.msize protocolVersion⟩ ∧
    Frame.decode heard = .ok ⟨noTag, .rversion server protocolVersion⟩ ∧
    Session.attachable (min server config.msize) config.uname config.aname = false

/-- A handshake and an attach behind settings that are valid. -/
theorem always_attach_refused {config : Config} {s : Session} (hv : config.validate = .ok ()) :
    Client.Always Wire.Step (attach config) s [] fun r _ log =>
      Accepted r ∨ Unattachable config log := by
  let version : Session.Query UInt32 := .negotiate config.msize
  let op : Session.Query (UInt32 × Qid) := .attach config.uname config.aname
  have hsend : version.Sendable s :=
    Session.Query.sendable_negotiate (Config.validate_eq_ok_iff.1 hv).1
  have hnegotiate : Client.Always Wire.Step version.perform s [] _ := Session.Query.always_recorded
  refine hnegotiate.bind (fun agreed t log ⟨ht, hversion⟩ => ?_) fun e t log ⟨_, hversion⟩ => ?_
  · have hattach : Client.Always Wire.Step op.perform t log _ := Session.Query.always_recorded
    refine hattach.bind (fun _ _ _ _ => .pure (.inl (.ok _))) fun e u log' ⟨_, hr⟩ => ?_
    obtain ⟨hs, -⟩ | ⟨hs, rfl, -⟩ := hr.request
    · exact .inl (hr.accepted hs).of_error
    obtain ⟨request, heard, server, hlog, hheard, -, -, hagreed⟩ := hversion.agreed
    refine .inr ⟨request, heard, server, hlog, ?_, hheard, ?_⟩
    · obtain ⟨-, request', heard', hf, hlog'⟩ | ⟨hs', -⟩ := hversion.request
      · obtain ⟨rfl, -⟩ := Prod.mk.inj (List.cons.inj (hlog.symm.trans hlog')).1
        exact (Session.Query.decode_of_sends hf).1 trivial
      · exact absurd hsend hs'
    · have hmsize : t.msize = min server config.msize := by
        rw [ht, ← hagreed]
        rfl
      rw [← hmsize, ← Bool.not_eq_true]
      exact fun ha => hs (Session.Query.sendable_attach_iff.2 ha)
  · exact .inl (hversion.accepted hsend).of_error

/-- A mount refuses a mistake before it sends anything, unless it is an attach that
does not fit. -/
theorem always_mount_refused (config : Config) :
    (mount config).Always Wire.Step [] fun r log =>
      Accepted r ∨ log = [] ∨ Unattachable config log := by
  refine always_mount_recorded (fun e => .inr (.inl rfl)) fun hv => ?_
  exact (always_attach_refused hv).mono fun r t log h => h.imp (fun ha => ha.map _) .inr

/-- What has been sent when a mistake of the caller is refused. A mount has sent
nothing, or the handshake alone, and an attach does not fit what was agreed on. To
open a path, two requests have been sent for each name in front of the first that
cannot be walked to; for anything else, nothing has been sent. To unmount a volume is
no mistake. -/
theorem sent_before_refusal {config : Config} {misuse : Misuse} :
    (∀ log, (mount config).run.Runs Wire.Step [] (.error (.invalidParameter misuse)) log →
      log = [] ∨ Unattachable config log) ∧
    ∀ mounted visit log, Visit.Reached config mounted visit log →
      (∀ deed visit' log', (visit.perform deed).Runs Wire.Step log visit' log' →
        visit'.results = .error (.invalidParameter misuse) :: visit.results →
        ∃ sent, log' = sent ++ log ∧ sent.length = 2 * deed.passed visit.session.msize) ∧
      ∀ visit' log', visit.unmount.Runs Wire.Step log visit' log' →
        visit'.results ≠ .error (.invalidParameter misuse) :: visit.results := by
  refine ⟨fun log hrun => ?_, fun mounted visit log hv => ⟨fun deed visit' log' hrun hm => ?_, ?_⟩⟩
  · exact (always_mount_refused config _ log hrun).resolve_left fun ha => ha.not_misuse rfl
  · obtain ⟨sent, hlog, -, hrefused⟩ := (hv.ready.perform _ _ hrun).sent
    exact ⟨sent, hlog, hrefused misuse hm⟩
  · exact fun visit' log' hrun => (hv.ready.unmount _ _ hrun).accepted misuse

/-! ## Names that do not fit 256 bytes -/

/-- A name of 238 letters. -/
def longName : String := String.ofList (List.replicate 238 'b')

/-- A volume whose messages have no more than 256 bytes. -/
def narrow : Volume := { empty with config.msize := 256 }

/-- What there is once it is mounted. -/
def narrowVisit : Visit where
  volume := narrow
  session := { msize := 256, version := protocolVersion, fids := { next := 2 } }

/-- A server that agrees to 256 bytes and grants the attach. -/
def narrowServer : Scripted where
  replies := [{ bytes := frameOf ⟨noTag, .rversion 256 protocolVersion⟩ },
    { bytes := frameOf ⟨1, .rattach emptyDirectory⟩ }]

/-- A server that grants a walk and takes its fid back. -/
def walkedOnce : Scripted where
  replies := [{ bytes := frameOf ⟨1, .rwalk [emptyDirectory]⟩ },
    { bytes := frameOf ⟨1, .rclunk⟩ }]

/-- A user whose name does not fit. -/
def longNamed : Config := { narrow.config with uname := longName }

/-- A path whose second name does not fit. -/
def longNamedPath : String := "a/" ++ longName

theorem toList_longNamedPath : longNamedPath.toList = ['a', '/'] ++ List.replicate 238 'b' := by
  have hfront : "a/".toList = ['a', '/'] := by decide
  have hback : longName.toList = List.replicate 238 'b' := String.toList_ofList
  rw [longNamedPath, String.toList_append, hfront, hback]

set_option maxRecDepth 4096 in
theorem components_longNamedPath : Path.components longNamedPath = ["a", longName] := by
  have hsplit : (Text.splitAll Path.isSeparator (['a', '/'] ++ List.replicate 238 'b')).filter
      Path.isName = [['a'], List.replicate 238 'b'] := by decide
  have hnames : [['a'], List.replicate 238 'b'].map String.ofList = ["a", longName] := by
    decide
  rw [Path.components, toList_longNamedPath, hsplit, hnames]

set_option maxRecDepth 4096 in
theorem passed_longNamedPath : Session.passed narrowVisit.session.msize longNamedPath = 1 := by
  rw [Session.passed, components_longNamedPath]
  decide

theorem heard_longNamed :
    ∃ log, (mount longNamed).run.Runs Wire.Step []
      (.error (.invalidParameter (.requestTooLong .tattach 257 256))) log ∧ log ≠ [] := by
  have hrun := Scripted.runs_recorded (mount longNamed).run narrowServer []
  rw [show (Scripted.recorded (mount longNamed).run narrowServer []).1 =
    .error (.invalidParameter (.requestTooLong .tattach 257 256)) by decide +kernel] at hrun
  exact ⟨_, hrun, by decide +kernel⟩

/-- What has gone over the wire by then. -/
def narrowLog : Wire := (Scripted.recorded (mount narrow.config).run narrowServer []).2

theorem reached_narrow : Visit.Reached narrow.config true narrowVisit narrowLog := by
  have hrun := Scripted.runs_recorded (mount narrow.config).run narrowServer []
  rw [show (Scripted.recorded (mount narrow.config).run narrowServer []).1 =
    .ok (narrow, narrowVisit.session) by decide +kernel] at hrun
  exact .mounted hrun

set_option maxRecDepth 4096 in
theorem plan_longNamedPath : Path.plan longNamedPath true = .ok ⟨false, ["a", longName]⟩ := by
  have habsolute : Path.isAbsolute longNamedPath = false := by
    rw [Path.isAbsolute, toList_longNamedPath]
    rfl
  have hbelow : Path.staysBelow 0 ["a", longName] = true := by decide
  rw [Path.plan, components_longNamedPath, habsolute, hbelow]
  rfl

theorem heard_longNamedPath (log : Wire) : ∃ visit' log',
    (narrowVisit.perform (.act (.openPath longNamedPath))).Runs Wire.Step log visit' log' ∧
      visit'.results = [.error (.invalidParameter (.requestTooLong .twalk 257 256))] := by
  show ∃ visit' log', (narrowVisit.enter (Session.resolve narrow.root narrow.root longNamedPath >>=
    fun location => Handle.establish narrow.root location _)).Runs Wire.Step log visit' log' ∧ _
  rw [Session.resolve_of_plan plan_longNamedPath]
  refine ⟨_, _, Scripted.runs_recorded _ walkedOnce log, ?_⟩
  rw [Scripted.recorded_fst]
  decide +kernel

/-- An attach and a path with a name that does not fit are refused once two requests
have been exchanged, and the path's first name has been walked to and given back. -/
theorem sent_before_refusal_long_names :
    (∃ log, (mount longNamed).run.Runs Wire.Step []
        (.error (.invalidParameter (.requestTooLong .tattach 257 256))) log ∧
      log ≠ [] ∧ Unattachable longNamed log) ∧
    ∃ visit' log', Visit.Reached narrow.config true narrowVisit narrowLog ∧
      (narrowVisit.perform (.act (.openPath longNamedPath))).Runs Wire.Step narrowLog visit' log' ∧
      visit'.results = [.error (.invalidParameter (.requestTooLong .twalk 257 256))] ∧
      ∃ sent, log' = sent ++ narrowLog ∧ sent.length = 2 := by
  constructor
  · obtain ⟨log, hrun, hsent⟩ := heard_longNamed
    exact ⟨log, hrun, hsent, (sent_before_refusal.1 _ hrun).resolve_left hsent⟩
  · obtain ⟨visit', log', hrun, hm⟩ := heard_longNamedPath narrowLog
    obtain ⟨sent, hlog, hsent⟩ := (sent_before_refusal.2 _ _ _ reached_narrow).1 _ _ _ hrun hm
    rw [Deed.passed_openPath, passed_longNamedPath] at hsent
    exact ⟨visit', log', reached_narrow, hrun, hm, sent, hlog, hsent⟩

/-- Mistakes are refused after something has been sent. -/
theorem refused_after_sending :
    (∃ misuse log, (mount longNamed).run.Runs Wire.Step [] (.error (.invalidParameter misuse)) log ∧
      log ≠ []) ∧
    ∃ visit log visit' log' deed misuse, Visit.Reached narrow.config true visit log ∧
      (visit.perform deed).Runs Wire.Step log visit' log' ∧
      visit'.results = .error (.invalidParameter misuse) :: visit.results ∧ log' ≠ log := by
  refine ⟨⟨_, heard_longNamed⟩, ?_⟩
  obtain ⟨visit', log', hrun, hm⟩ := heard_longNamedPath narrowLog
  refine ⟨_, _, visit', log', _, _, reached_narrow, hrun, hm, fun hlog => ?_⟩
  obtain ⟨sent, hsent, -, hrefused⟩ := (reached_narrow.ready.perform _ _ hrun).sent
  have hnone : sent = [] := List.append_left_eq_self.1 (hsent.symm.trans hlog)
  have hlength := hrefused _ hm
  rw [hnone, Deed.passed_openPath, passed_longNamedPath] at hlength
  cases hlength

end Volume

end NineP
