import NineP.Proofs.Volume.Mounting

/-!
# Visits to a volume

A client mounts a volume, opens handles from it and uses them, in any order and
whether what it asks for succeeds or fails (`Volume.visit`). Which fids are live
at the server can be told at any time from what the client holds:

* `Visit.Sound`: the books are right for the fid of the root and those of the
  handles;
* `Visit.Sound.act`: every action keeps them right;
* `Volume.live_iff_held`: no action leaves a fid behind or takes one away.
-/

namespace NineP

/-- What may be asked of an open handle. -/
inductive Handle.Action where
  | openPath (path : String)
  | read (room : Nat)
  | readData (wanted : Nat)
  | readEntry
  | readLink (room : Nat)
  | linkTarget
  | getInfo
  | fsInfo
  | setPosition (position : UInt64)
  | close
  deriving DecidableEq, Repr

/-- What may be asked of a volume. The handles opened from it are told apart by
their places. -/
inductive Volume.Action where
  | openRoot
  | openPath (path : String)
  | fsInfo
  | use (place : Nat) (action : Handle.Action)
  deriving DecidableEq, Repr

/-- What has come of a volume: the handles that are open and, the last first, the
results so far. -/
structure Visit where
  volume : Volume
  session : Session
  handles : List Handle := []
  results : List (Except Error Unit) := []

namespace Visit

/-- The visit after one more result. -/
def record (visit : Visit) (r : Except Error α) (session : Session) (handles : List Handle) :
    Visit :=
  { visit with session, handles, results := (fun _ => ()) <$> r :: visit.results }

section

variable {m : Type → Type} [Monad m] {_ : Machine m}

/-- Ask for a new handle. -/
def enter (visit : Visit) (x : Client Handle) : m Visit := do
  let (r, session) ← x.runIn visit.session
  match r with
  | .ok h => pure (visit.record r session (visit.handles ++ [h]))
  | .error _ => pure (visit.record r session visit.handles)

/-- Ask for what leaves these handles. -/
def leave (visit : Visit) (x : Client α) (handles : List Handle) : m Visit := do
  let (r, session) ← x.runIn visit.session
  pure (visit.record r session handles)

/-- Ask something of the handle in a place. -/
def work (visit : Visit) (place : Nat) (h : Handle) (x : HandleClient α) : m Visit := do
  let ((r, h), session) ← (x.run.run h).run visit.session
  pure (visit.record r session (visit.handles.set place h))

end

section

variable {m : Type → Type} [Monad m] [Machine m] [Relies m]

/-- Act on the handle in a place. A handle is gone once it is closed, whether
that succeeds or fails. -/
def actOn (visit : Visit) (place : Nat) (h : Handle) : Handle.Action → m Visit
  | .openPath path => visit.enter (h.openPath path)
  | .read room => visit.work place h (Handle.read room)
  | .readData wanted => visit.work place h (Handle.readData wanted)
  | .readEntry => visit.work place h Handle.readEntry
  | .readLink room => visit.work place h (Handle.readLink room)
  | .linkTarget => visit.work place h Handle.linkTarget
  | .getInfo => visit.work place h Handle.getInfo
  | .fsInfo => visit.leave h.fsInfo visit.handles
  | .setPosition position => visit.work place h (Handle.setPosition position)
  | .close => visit.leave h.close (visit.handles.eraseIdx place)

/-- Act on the volume. In a place without a handle there is nothing to do. -/
def act (visit : Visit) : Volume.Action → m Visit
  | .openRoot => visit.enter visit.volume.openRoot
  | .openPath path => visit.enter (visit.volume.openPath path)
  | .fsInfo => visit.leave visit.volume.fsInfo visit.handles
  | .use place action =>
    match visit.handles[place]? with
    | some h => visit.actOn place h action
    | none => pure visit

end

/-- The fids of the root and of the open handles. -/
def fids (visit : Visit) : List UInt32 :=
  visit.volume.root.fid :: visit.handles.flatMap Handle.fids

/-- The number of fids that were taken for requests that were not sent. -/
def idle (visit : Visit) : Nat := (visit.results.map unsent).sum

/-- The books are right for what is open. -/
structure Sound (visit : Visit) (p : Peer) : Prop where
  handles : ∀ h ∈ visit.handles, h.Sound
  balanced : Balanced visit.fids visit.idle visit.session p

end Visit

/-- Mount a volume and act on it. -/
def Volume.visit {m : Type → Type} [Monad m] [Machine m] [Relies m] (config : Config)
    (actions : List Volume.Action) : Exchange Visit := do
  let (volume, session) ← mount config
  let start : Visit := { volume, session }
  liftM (actions.foldlM Visit.act start)

namespace Visit

variable {visit : Visit} {p : Peer} {place : Nat} {h : Handle}

theorem idle_record (r : Except Error α) (session : Session) (handles : List Handle) :
    (visit.record r session handles).idle = visit.idle + unsent r := by
  rw [idle, record, List.map_cons, List.sum_cons, unsent_map, Nat.add_comm]
  rfl

/-- The fids held beside those of the handle in a place. -/
def others (visit : Visit) (place : Nat) : List UInt32 :=
  visit.volume.root.fid :: (visit.handles.eraseIdx place).flatMap Handle.fids

/-- The fids once another handle has been put in a place. -/
theorem fids_set (hp : place < visit.handles.length) (g : Handle) :
    (visit.volume.root.fid :: (visit.handles.set place g).flatMap Handle.fids).Perm
      (g.fids ++ visit.others place) := by
  have hset : (visit.handles.set place g).Perm (g :: visit.handles.eraseIdx place) := by
    rw [List.set_eq_take_append_cons_drop, if_pos hp, List.eraseIdx_eq_take_drop_succ]
    exact List.perm_middle
  have hflat := hset.flatMap_right Handle.fids
  rw [List.flatMap_cons] at hflat
  exact (hflat.cons _).trans List.perm_middle.symm

theorem fids_perm (hh : visit.handles[place]? = some h) :
    visit.fids.Perm (h.fids ++ visit.others place) := by
  obtain ⟨hp, rfl⟩ := List.getElem?_eq_some_iff.1 hh
  have hset := fids_set hp visit.handles[place]
  rwa [List.set_getElem_self] at hset

namespace Sound

theorem enter {x : Client Handle} (hv : visit.Sound p)
    (hx : x.Always (Peer.Step .serving) visit.session p (Opened visit.fids visit.idle)) :
    Dialogue.Always (Peer.Step .serving) (visit.enter x) p Sound := by
  refine Dialogue.Always.bind hx fun (r, session) q ⟨hentered, hsound⟩ => ?_
  cases r with
  | ok h =>
    refine .done ⟨fun g hg => ?_, ?_⟩
    · rcases List.mem_append.1 hg with hg | hg
      · exact hv.handles g hg
      · exact hsound g (congrArg _ (List.mem_singleton.1 hg).symm)
    · have hentered : Balanced (h.fids ++ visit.fids) visit.idle session q := hentered
      rw [idle_record]
      refine hentered.perm (List.perm_append_comm.trans ?_)
      show (visit.volume.root.fid :: (visit.handles.flatMap Handle.fids ++ h.fids)).Perm
        (visit.volume.root.fid :: (visit.handles ++ [h]).flatMap Handle.fids)
      rw [List.flatMap_append, List.flatMap_singleton]
  | error e =>
    refine .done ⟨hv.handles, ?_⟩
    rw [idle_record]
    exact hentered

theorem leave {x : Client α} {handles : List Handle} (hs : ∀ h ∈ handles, h ∈ visit.handles)
    (hv : visit.Sound p)
    (hx : x.Always (Peer.Step .serving) visit.session p
      (Entered (fun _ => visit.volume.root.fid :: handles.flatMap Handle.fids)
        (visit.volume.root.fid :: handles.flatMap Handle.fids) visit.idle)) :
    Dialogue.Always (Peer.Step .serving) (visit.leave x handles) p Sound := by
  refine Dialogue.Always.bind hx fun (r, session) q hr => .done ⟨fun h hh => ?_, ?_⟩
  · exact hv.handles h (hs h hh)
  · rw [idle_record]
    exact hr.balanced

theorem work {x : HandleClient α} (hv : visit.Sound p) (hh : visit.handles[place]? = some h)
    (hx : h.Sound → Balanced (h.fids ++ visit.others place) visit.idle visit.session p →
      x.Always (Peer.Step .serving) h visit.session p (Tended h (visit.others place) visit.idle)) :
    Dialogue.Always (Peer.Step .serving) (visit.work place h x) p Sound := by
  obtain ⟨hp, he⟩ := List.getElem?_eq_some_iff.1 hh
  have hx := hx (hv.handles h (List.mem_of_getElem? hh)) (hv.balanced.perm (fids_perm hh))
  refine Dialogue.Always.bind hx fun ((r, g), session) q hg => .done ⟨fun g' hg' => ?_, ?_⟩
  · rcases List.mem_or_eq_of_mem_set hg' with hg' | rfl
    · exact hv.handles g' hg'
    · exact hg.sound
  · rw [idle_record]
    exact hg.balanced.perm (fids_set hp g).symm

theorem actOn {action : Handle.Action} (hv : visit.Sound p)
    (hh : visit.handles[place]? = some h) :
    Dialogue.Always (Peer.Step .serving) (visit.actOn place h action) p Sound := by
  cases action with
  | openPath path => exact hv.enter (.openPath hv.balanced)
  | read room => exact hv.work hh .read
  | readData wanted => exact hv.work hh .readData
  | readEntry => exact hv.work hh .readEntry
  | readLink room => exact hv.work hh .readLink
  | linkTarget => exact hv.work hh .linkTarget
  | getInfo => exact hv.work hh .getInfo
  | fsInfo => exact hv.leave (fun _ h => h) (.fsInfo hv.balanced)
  | setPosition position => exact hv.work hh .setPosition
  | close =>
    refine hv.leave (fun _ h => List.mem_of_mem_eraseIdx h) (.close ?_ ?_)
    · exact hv.handles h (List.mem_of_getElem? hh)
    · exact hv.balanced.perm (fids_perm hh)

/-- What is asked for may fail at any point, and yet the books stay right. -/
theorem act {action : Volume.Action} (hv : visit.Sound p) :
    Dialogue.Always (Peer.Step .serving) (visit.act action) p Sound := by
  cases action with
  | openRoot => exact hv.enter (.resolve_establish hv.balanced)
  | openPath path => exact hv.enter (.resolve_establish hv.balanced)
  | fsInfo => exact hv.leave (fun _ h => h) (.fsInfo hv.balanced)
  | use place action =>
    rw [Visit.act]
    cases hh : visit.handles[place]? with
    | some h => exact hv.actOn hh
    | none => exact .done hv

theorem acts {actions : List Volume.Action} (hv : visit.Sound p) :
    Dialogue.Always (Peer.Step .serving) (actions.foldlM Visit.act visit) p Sound := by
  induction actions generalizing visit p with
  | nil => exact .done hv
  | cons action actions ih =>
    rw [List.foldlM_cons]
    exact .bind hv.act fun _ _ hv => ih hv

end Sound

end Visit

namespace Volume

/-- The number of fids that have been taken: those that requests named, and those
taken for requests that were not sent. -/
def taken (r : Except Error Visit) (p : Peer) : Nat :=
  Peer.namings p.log +
    match r with
    | .ok visit => visit.idle
    | .error e => unsent (.error e : Except Error Visit)

/-- A visit leaves the books right, and without a volume there is nothing in them. -/
theorem always_visit (config : Config) (actions : List Action) :
    (visit config actions).Always (Peer.Step .serving) {} fun r p =>
      match r with
      | .ok visit => visit.Sound p
      | .error _ => fidSupply ≤ taken r p ∨ Peer.live p.log = [] := by
  refine (Exchange.Always.mount config).bind (fun (volume, session) q hq => ?_) fun e q hq => hq
  exact .dialogue (Visit.Sound.acts ⟨fun h hh => absurd hh List.not_mem_nil, hq⟩)

/-- No fid has been taken that is not counted: the fids are taken in a row from
the first. -/
theorem next_eq_taken {config : Config} {actions : List Action} {visit : Visit} {p : Peer}
    (hrun : (Volume.visit config actions).run.Runs (Peer.Step .serving) {} (.ok visit) p)
    (hfew : taken (.ok visit) p < fidSupply) :
    visit.session.fids.next.toNat = taken (.ok visit) p + 1 := by
  have hvisit : visit.Sound p := always_visit config actions _ p hrun
  exact (hvisit.balanced.resolve_left (Nat.not_le.2 hfew)).next

/-- No fid leaks. Over a server that answers at once, whatever has been asked for
and whether it succeeded or failed, the fids that are live are the root's, the
own fid of each open handle, and the clone of each of a directory that has been
opened for reading. -/
theorem live_iff_held {config : Config} {actions : List Action} {r : Except Error Visit} {p : Peer}
    (hrun : (visit config actions).run.Runs (Peer.Step .serving) {} r p)
    (hfew : taken r p < 2 ^ 32 - 2) (fid : UInt32) :
    fid ∈ Peer.live p.log ↔ ∃ visit, r = .ok visit ∧ (fid = visit.volume.root.fid ∨
      ∃ h ∈ visit.handles, fid = h.location.fid ∨ h.kind = .directory ∧ h.ioFid = some fid) := by
  have hvisit := always_visit config actions r p hrun
  cases r with
  | error e =>
    have hlive : Peer.live p.log = [] := hvisit.resolve_left (Nat.not_le.2 hfew)
    rw [hlive]
    constructor
    · exact fun hf => absurd hf List.not_mem_nil
    · intro ⟨visit, hr, _⟩
      cases hr
  | ok visit =>
    have hbooks := hvisit.balanced.resolve_left (Nat.not_le.2 hfew)
    rw [hbooks.live, Visit.fids, List.mem_cons, List.mem_flatMap]
    simp only [Except.ok.injEq, exists_eq_left', Handle.mem_fids]

/-! ## Reading a directory and missing a file -/

/-- The frame of a message, if it can be written. -/
def frameOf (m : Message) : Bytes := (Frame.encode m).toOption.getD []

theorem serving_frameOf (log : List (Bytes × Bytes)) (m answer : Message) {expected : MessageType}
    (hm : Frame.decode (frameOf m) = .ok m) (ha : Frame.decode (frameOf answer) = .ok answer)
    (ht : answer.tag = m.tag) (he : m.body.type.response? = some expected)
    (htype : answer.body.type = expected ∨ answer.body.type = .rlerror)
    (hl : (frameOf answer).length ≤ max errorReportSize (Peer.replyLimit log m.body).toNat) :
    Manners.serving.answers log (frameOf m) (frameOf answer) := by
  intro m' expected' hm' he'
  obtain rfl := Except.ok.inj (hm.symm.trans hm')
  obtain rfl := Option.some.inj (he.symm.trans he')
  exact ⟨answer, ha, ht, htype, hl⟩

/-- The identity of an empty directory. -/
def emptyDirectory : Qid := { bits := Qid.directoryBit }

/-- A volume with nothing in it. -/
def empty : Volume :=
  { root := { fid := 1, qid := emptyDirectory }, config := { remote := .v4 ⟨1⟩ defaultPort } }

def emptySession (next : UInt32) : Session :=
  { version := protocolVersion, fids := { next } }

/-- A handle on its root. -/
def emptyRoot : Handle := .fresh empty.root { fid := 2, qid := emptyDirectory } "/"

def emptyRootRead : Handle := { emptyRoot with ioFid := some 3, exhausted := true }

/-- The requests of the visit with their replies, the last first. -/
def emptyLog : List (Bytes × Bytes) :=
  [(frameOf ⟨1, .twalk 1 4 ["f"]⟩, frameOf ⟨1, .rlerror 2⟩),
    (frameOf ⟨1, .treaddir 3 0 8168⟩, frameOf ⟨1, .rreaddir []⟩),
    (frameOf ⟨1, .tlopen 3 0⟩, frameOf ⟨1, .rlopen emptyDirectory 0⟩),
    (frameOf ⟨1, .twalk 2 3 []⟩, frameOf ⟨1, .rwalk []⟩),
    (frameOf ⟨1, .twalk 1 2 []⟩, frameOf ⟨1, .rwalk []⟩),
    (frameOf ⟨1, .tattach 1 noFid "root" ""⟩, frameOf ⟨1, .rattach emptyDirectory⟩),
    (frameOf ⟨noTag, .tversion 8192 protocolVersion⟩,
      frameOf ⟨noTag, .rversion 8192 protocolVersion⟩)]

theorem runs_mount : (mount empty.config).run.Runs (Peer.Step .serving) {}
    (.ok (empty, emptySession 2)) { log := emptyLog.drop 5 } := by
  have version := serving_frameOf [] ⟨noTag, .tversion 8192 protocolVersion⟩
    ⟨noTag, .rversion 8192 protocolVersion⟩ rfl rfl rfl rfl (.inl rfl) (by decide)
  have attach := serving_frameOf (emptyLog.drop 6) ⟨1, .tattach 1 noFid "root" ""⟩
    ⟨1, .rattach emptyDirectory⟩ rfl rfl rfl rfl (.inl rfl) (by decide)
  refine .ask .configure (.ask .connect (.ask (.transmit version) ?_))
  refine .ask (.receive 4 ?_ ?_ ?_) (.ask (.receive 17 ?_ ?_ ?_) (.ask (.transmit attach) ?_))
  iterate 6 decide
  refine .ask (.receive 4 ?_ ?_ ?_) (.ask (.receive 16 ?_ ?_ ?_) (.done _ _))
  all_goals decide

theorem runs_openRoot : (Visit.act ⟨empty, emptySession 2, [], []⟩ .openRoot).Runs
    (Peer.Step .serving) { log := emptyLog.drop 5 }
    ⟨empty, emptySession 3, [emptyRoot], [.ok ()]⟩ { log := emptyLog.drop 4 } := by
  have walk := serving_frameOf (emptyLog.drop 5) ⟨1, .twalk 1 2 []⟩ ⟨1, .rwalk []⟩ rfl rfl rfl rfl
    (.inl rfl) (by decide)
  refine .ask (.transmit walk) ?_
  refine .ask (.receive 4 ?_ ?_ ?_) (.ask (.receive 5 ?_ ?_ ?_) (.done _ _))
  all_goals decide

theorem runs_readEntry : (Visit.act ⟨empty, emptySession 3, [emptyRoot], [.ok ()]⟩
      (.use 0 .readEntry)).Runs (Peer.Step .serving) { log := emptyLog.drop 4 }
    ⟨empty, emptySession 4, [emptyRootRead], [.ok (), .ok ()]⟩ { log := emptyLog.drop 1 } := by
  have clone := serving_frameOf (emptyLog.drop 4) ⟨1, .twalk 2 3 []⟩ ⟨1, .rwalk []⟩ rfl rfl rfl rfl
    (.inl rfl) (by decide)
  have lopen := serving_frameOf (emptyLog.drop 3) ⟨1, .tlopen 3 0⟩ ⟨1, .rlopen emptyDirectory 0⟩
    rfl rfl rfl rfl (.inl rfl) (by decide)
  have readdir := serving_frameOf (emptyLog.drop 2) ⟨1, .treaddir 3 0 8168⟩ ⟨1, .rreaddir []⟩
    rfl rfl rfl rfl (.inl rfl) (by decide)
  refine .ask (.transmit clone) ?_
  refine .ask (.receive 4 ?_ ?_ ?_) (.ask (.receive 5 ?_ ?_ ?_) (.ask (.transmit lopen) ?_))
  iterate 6 decide
  refine .ask (.receive 4 ?_ ?_ ?_) (.ask (.receive 20 ?_ ?_ ?_) (.ask (.transmit readdir) ?_))
  iterate 6 decide
  refine .ask (.receive 4 ?_ ?_ ?_) (.ask (.receive 7 ?_ ?_ ?_) (.done _ _))
  all_goals decide

/-- What is held once the root has been read and a file has been missed. -/
def emptyVisit : Visit :=
  ⟨empty, emptySession 5, [emptyRootRead], [.error (.server .notFound), .ok (), .ok ()]⟩

theorem runs_openPath : (Visit.act ⟨empty, emptySession 4, [emptyRootRead], [.ok (), .ok ()]⟩
      (.openPath "f")).Runs (Peer.Step .serving) { log := emptyLog.drop 1 }
    emptyVisit { log := emptyLog } := by
  have walk := serving_frameOf (emptyLog.drop 1) ⟨1, .twalk 1 4 ["f"]⟩ ⟨1, .rlerror 2⟩
    rfl rfl rfl rfl (.inr rfl) (by decide)
  refine .ask (.transmit walk) ?_
  refine .ask (.receive 4 ?_ ?_ ?_) (.ask (.receive 7 ?_ ?_ ?_) (.done _ _))
  all_goals decide

theorem runs_visit : (visit empty.config [.openRoot, .use 0 .readEntry, .openPath "f"]).run.Runs
    (Peer.Step .serving) {} (.ok emptyVisit) { log := emptyLog } := by
  refine Dialogue.runs_bind.2 ⟨_, _, runs_mount, ?_⟩
  refine Dialogue.runs_bind.2 ⟨emptyVisit, _, ?_, .done _ _⟩
  refine Dialogue.runs_bind.2 ⟨_, _, runs_openRoot, ?_⟩
  refine Dialogue.runs_bind.2 ⟨_, _, runs_readEntry, ?_⟩
  exact Dialogue.runs_bind.2 ⟨_, _, runs_openPath, .done _ _⟩

/-- The clone is live, and the fid that was to be the missed file's is not. -/
theorem live_after_miss : 3 ∈ Peer.live emptyLog ∧ 4 ∉ Peer.live emptyLog := by
  have hfew : taken (.ok emptyVisit) { log := emptyLog } < 2 ^ 32 - 2 := by decide
  constructor
  · refine (live_iff_held runs_visit hfew 3).2 ⟨_, rfl, .inr ⟨emptyRootRead, ?_, .inr ⟨rfl, rfl⟩⟩⟩
    exact List.mem_singleton.2 rfl
  · intro h
    obtain ⟨visit, hr, hheld⟩ := (live_iff_held runs_visit hfew 4).1 h
    obtain rfl := Except.ok.inj hr
    rcases hheld with hroot | ⟨h, hh, hfid⟩
    · exact absurd hroot (by decide)
    · obtain rfl := List.mem_singleton.1 hh
      exact absurd hfid (by decide)

end Volume

end NineP
