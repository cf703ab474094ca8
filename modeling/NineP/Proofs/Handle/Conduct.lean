import NineP.Proofs.Handle.Opening
import NineP.Proofs.Session.Refused

/-!
# How a handle behaves

Whatever is asked of a handle, the message size stays as it is, the entries that it
keeps can be walked to, and it walks from its own fid alone, and only if that is a
directory's (`Handle.Conduct`). Nothing that it sends is refused, so that it refuses
a mistake of the caller before it sends anything:

* `Session.Bound`: which fids a client has walked from since then;
* `Handle.Conduct.ensureOpen`, `Handle.Conduct.nextEntry`: the walks of a directory;
* `Handle.Conduct.read`, `Handle.Conduct.setPosition`: a mistake is refused at once.
-/

namespace NineP

/-- Whether a walk in the record, if it is one, is from such a fid. -/
def Wire.WalksFrom (P : UInt32 → Prop) (entry : Bytes × Bytes) : Prop :=
  ∀ fid new names answer, Wire.exchanged? entry = some (.twalk fid new names, answer) → P fid

/-- The message size is this, and since the record was `base` all walks have been from
such fids. -/
structure Session.Bound (P : UInt32 → Prop) (msize : UInt32) (base : Wire) (s : Session)
    (log : Wire) : Prop where
  msize : s.msize = msize
  sent : ∃ sent, log = sent ++ base ∧ ∀ entry ∈ sent, Wire.WalksFrom P entry

/-- As `Session.Bound`, after a result that is no refusal. -/
def Session.Sends (P : UInt32 → Prop) (msize : UInt32) (base : Wire) (r : Except Error α)
    (s : Session) (log : Wire) : Prop :=
  Accepted r ∧ Bound P msize base s log

/-- What is kept of a handle: its own fid is among those that are walked from if it is
a directory's, and the entries that have been fetched can be walked to. -/
structure Handle.Conduct (P : UInt32 → Prop) (kind : FileKind) (msize : UInt32) (base : Wire)
    (h : Handle) (s : Session) (log : Wire) : Prop where
  same : h.kind = kind
  own : kind = .directory → P h.location.fid
  pending : ∀ e ∈ h.pending, Session.passable msize e.name = true
  bound : Session.Bound P msize base s log

/-- As `Handle.Conduct`, after a result that is no refusal. -/
def Handle.Engaged (P : UInt32 → Prop) (kind : FileKind) (msize : UInt32) (base : Wire)
    (r : Except Error α) (h : Handle) (s : Session) (log : Wire) : Prop :=
  Accepted r ∧ h.Conduct P kind msize base s log

/-- As `Handle.Conduct`, after a result that is a refusal only if nothing was sent. -/
def Handle.Conducted (P : UInt32 → Prop) (kind : FileKind) (msize : UInt32) (base : Wire)
    (r : Except Error α) (h : Handle) (s : Session) (log : Wire) : Prop :=
  (Accepted r ∨ log = base) ∧ h.Conduct P kind msize base s log

variable {P : UInt32 → Prop} {kind : FileKind} {msize : UInt32} {base log log' : Wire}
  {s t : Session}

namespace Session.Bound

theorem start (s : Session) (log : Wire) : Bound P s.msize log s log :=
  ⟨rfl, [], rfl, fun _ h => by cases h⟩

/-- One more request has been sent. -/
theorem entered {request : Body} (h : Bound P msize base s log) (ht : t.msize = s.msize)
    (he : Wire.Entered request log log')
    (hw : ∀ fid new names, request = .twalk fid new names → P fid) :
    Bound P msize base t log' := by
  obtain ⟨entry, answer, rfl, he⟩ := he
  obtain ⟨sent, rfl, hsent⟩ := h.sent
  refine ⟨ht.trans h.msize, entry :: sent, rfl, List.forall_mem_cons.2 ⟨?_, hsent⟩⟩
  intro fid new names answer' hwalk
  have hrequest := congrArg Prod.fst (Option.some.inj (he.symm.trans hwalk))
  exact hw fid new names hrequest

theorem plain {α : Type} {op : Query α} (h : Bound P msize base s log) (hs : minMsize ≤ msize)
    (hp : op.isPlain = true) : Client.Always Wire.Step op.perform s log (Sends P msize base) := by
  have hsend : op.Sendable s := Query.sendable_of_isPlain hp (h.msize ▸ hs)
  have hop : (op.body s).CountsHold ∧ (∀ fid new names, (op.body s).known ≠ .twalk fid new names) ∧
      ∀ r, op.leaves s r = s := by
    cases op with
    | negotiate => cases hp
    | attach => cases hp
    | walk => cases hp
    | _ => exact ⟨trivial, fun _ _ _ h => (by cases h), fun _ => rfl⟩
  obtain ⟨hc, hw, hleaves⟩ := hop
  refine (Query.always_asked hsend hc).mono fun r t log' ⟨ht, ha, he⟩ => ⟨ha, ?_⟩
  exact h.entered (by rw [ht, hleaves]) he fun fid new names hb => absurd hb (hw fid new names)

theorem freshFid (h : Bound P msize base s log) :
    Client.Always Wire.Step Client.freshFid s log
      (Client.Yields fun _ => Bound P msize base) :=
  fun _ _ hr => by
    obtain ⟨rfl, rfl⟩ := Dialogue.runs_done.1 hr
    exact ⟨_, rfl, h.msize, h.sent⟩

theorem release {fid : UInt32} (h : Bound P msize base s log) (hs : minMsize ≤ msize) :
    Client.Always Wire.Step (Session.release fid) s log
      (Client.Yields fun _ => Bound P msize base) := by
  have hclunk : Client.Always Wire.Step (Query.clunk fid).perform s log (Sends P msize base) :=
    h.plain hs rfl
  exact hclunk.attempt.bind_of_yields fun _ _ _ hq => .pure ⟨(), rfl, hq.2⟩

/-- A walk of no names, or through one that can be walked to. -/
theorem walk {fid new : UInt32} {names : List String} (h : Bound P msize base s log)
    (hs : minMsize ≤ msize) (hp : P fid)
    (hn : names = [] ∨ ∃ name, names = [name] ∧ passable msize name = true) :
    Client.Always Wire.Step (Session.walk fid new names) s log (Sends P msize base) := by
  let op : Query (List Qid) := .walk fid new names
  have hsend : op.Sendable s ∧ (op.body s).CountsHold := by
    rcases hn with rfl | ⟨name, rfl, hpass⟩
    · exact ⟨Query.sendable_walk_nil (h.msize ▸ hs), Nat.zero_le _⟩
    · exact ⟨Query.sendable_step_iff.2 (h.msize ▸ hpass), Nat.le_of_ble_eq_true rfl⟩
  refine (Query.always_asked hsend.1 hsend.2).mono fun r t log' ⟨ht, ha, he⟩ => ⟨ha, ?_⟩
  refine h.entered (congrArg Session.msize ht) he fun fid' new' names' hb => ?_
  obtain ⟨rfl, -, -⟩ := Body.twalk.inj hb
  exact hp

theorem sends {r : Except Error α} (h : Bound P msize base s log) (hr : Accepted r) :
    Sends P msize base r s log := ⟨hr, h⟩

end Session.Bound

namespace Session.Sends

/-- What comes after a failure is left out. -/
theorem bind {x : Client α} {f : α → Client β} {log : Wire}
    (hx : x.Always Wire.Step s log (Sends P msize base))
    (hf : ∀ a t log', Bound P msize base t log' →
      (f a).Always Wire.Step t log' (Sends P msize base)) :
    (x >>= f).Always Wire.Step s log (Sends P msize base) :=
  hx.bind (fun a t log' h => hf a t log' h.2) fun _ _ _ h => ⟨h.1.of_error, h.2⟩

end Session.Sends

namespace Handle.Conduct

open HandleClient

variable {h g : Handle}

theorem start (hp : ∀ e ∈ h.pending, Session.passable s.msize e.name = true) :
    h.Conduct (fun fid => fid = h.location.fid ∧ h.kind = .directory) h.kind s.msize log s log :=
  ⟨rfl, fun hk => ⟨rfl, hk⟩, hp, .start s log⟩

/-- The session has gone on. -/
theorem rebound (hc : h.Conduct P kind msize base s log) (hb : Session.Bound P msize base t log') :
    h.Conduct P kind msize base t log' :=
  { hc with bound := hb }

theorem engaged {r : Except Error α} (hc : h.Conduct P kind msize base s log) (hr : Accepted r) :
    h.Engaged P kind msize base r s log := ⟨hr, hc⟩

/-- An operation of the session that is not refused. -/
theorem ofClient_bind {x : Client α} {f : α → HandleClient β}
    (hc : h.Conduct P kind msize base s log)
    (hx : x.Always Wire.Step s log (Session.Sends P msize base))
    (hf : ∀ a t log', h.Conduct P kind msize base t log' →
      Always Wire.Step (f a) h t log' (Engaged P kind msize base)) :
    Always Wire.Step (HandleClient.ofClient x >>= f) h s log (Engaged P kind msize base) :=
  Always.ofClient_bind hx (fun a t log' hq => hf a t log' (hc.rebound hq.2))
    fun _ _ _ hq => ⟨hq.1.of_error, hc.rebound hq.2⟩

theorem bind {x : HandleClient α} {f : α → HandleClient β}
    (hx : Always Wire.Step x h s log (Engaged P kind msize base))
    (hf : ∀ a g t log', g.Conduct P kind msize base t log' →
      Always Wire.Step (f a) g t log' (Engaged P kind msize base)) :
    Always Wire.Step (x >>= f) h s log (Engaged P kind msize base) :=
  hx.bind (fun a g t log' hg => hf a g t log' hg.2) fun _ _ _ _ hg => ⟨hg.1.of_error, hg.2⟩

/-! ## Opening -/

/-- Which fid is opened is no matter. -/
theorem openOn (hc : h.Conduct P kind msize base s log) (hs : minMsize ≤ msize) (fid : UInt32) :
    Always Wire.Step (h.openOn fid) h s log (Engaged P kind msize base) := by
  have hopen : Client.Always Wire.Step
      (Session.Query.lopen fid Handle.readOnlyFlags).perform s log
      (Session.Sends P msize base) := hc.bound.plain hs rfl
  refine Always.openOn_of_lopen hopen
    (fun _ _ t log' hr => ⟨.ok _, hc.same, hc.own, hc.pending, hr.2⟩)
    (fun _ e t log' hr => ⟨hr.1.of_error, hc.rebound hr.2⟩) fun _ e t log' hr => ?_
  exact (hr.2.release hs).mono fun _ u log' ⟨_, hok, hq⟩ =>
    ⟨(), hok, hr.1.of_error, hc.rebound hq⟩

/-- A directory is opened on a clone, and nothing else is cloned. -/
theorem ensureOpen (hc : h.Conduct P kind msize base s log) (hs : minMsize ≤ msize) :
    Always Wire.Step Handle.ensureOpen h s log (Engaged P kind msize base) := by
  refine .ensureOpen_of_openOn (fun _ _ => hc.engaged (.ok _)) (fun _ hd => ?_)
    fun _ _ => hc.openOn hs _
  refine Always.ofClient_bind_of_yields hc.bound.freshFid fun fid t log' hq => ?_
  have hwalk : Client.Always Wire.Step (Session.walk h.location.fid fid []) t log'
      (Session.Sends P msize base) := hq.walk hs (hc.own (hc.same.symm.trans hd)) (.inl rfl)
  exact (hc.rebound hq).ofClient_bind hwalk fun _ u log' hc => hc.openOn hs fid

/-- The attributes of an entry that was listed come through a walk from the
directory. -/
theorem entryInfo {entry : DirEntry} (hc : h.Conduct P kind msize base s log)
    (hs : minMsize ≤ msize) (hd : kind = .directory)
    (he : Session.passable msize entry.name = true) :
    (h.entryInfo entry).Always Wire.Step s log (Session.Sends P msize base) := by
  refine hc.bound.freshFid.bind_of_yields fun fid t log' hq => ?_
  refine Session.Sends.bind (hq.walk hs (hc.own hd) (.inr ⟨_, rfl, he⟩)) fun _ u log' hq => ?_
  have hattr : Client.Always Wire.Step (Session.Query.getattr fid .all).perform u log'
      (Session.Sends P msize base) := hq.plain hs rfl
  refine hattr.attempt.bind_of_yields fun attr v log' ha => ?_
  refine (ha.2.release hs).bind_of_yields fun _ w log' hq => ?_
  cases attr with
  | ok attr => exact .pure ⟨.ok _, hq⟩
  | error e => exact .throw ⟨ha.1.of_error, hq⟩

/-! ## Reading -/

theorem readFrom {fid : UInt32} {start : UInt64} {fuel wanted : Nat} {acc : Bytes}
    (hc : h.Conduct P kind msize base s log) (hs : minMsize ≤ msize) :
    Always Wire.Step (Handle.readFrom fid start fuel wanted acc) h s log
      (Engaged P kind msize base) := by
  induction fuel generalizing wanted acc h s log with
  | zero => exact .pure (hc.engaged (.ok _))
  | succ fuel ih =>
    cases wanted with
    | zero => exact .pure (hc.engaged (.ok _))
    | succ wanted =>
      let count := UInt32.ofNat (min s.readCeiling.toNat (wanted + 1))
      have hread : Client.Always Wire.Step (Session.Query.read fid h.position count).perform s log
          (Session.Sends P msize base) := hc.bound.plain hs rfl
      refine .get_bind (.session_bind (Always.ofClient_bind_of_yields hread.attempt ?_))
      intro r t log' hr
      have hc := hc.rebound hr.2
      cases r with
      | error e => exact .set_bind (.throw ⟨hr.1.of_error, hc.same, hc.own, hc.pending, hc.bound⟩)
      | ok data =>
        cases data with
        | nil => exact .pure (hc.engaged (.ok _))
        | cons byte bytes => exact .relies (.set_bind (ih ⟨hc.same, hc.own, hc.pending, hc.bound⟩))

/-- What is passed over was fetched with the rest. -/
theorem skipDots_subset (position : UInt64) (es : List DirEntry) :
    (Handle.skipDots position es).2 ⊆ es := by
  rw [Handle.skipDots_eq]
  exact (List.dropWhile_sublist _).subset

/-- What is fetched can be walked to, so that it can be looked up whenever the handle is
used again. -/
theorem nextEntry {fid : UInt32} {fuel : Nat} (hc : h.Conduct P kind msize base s log)
    (hs : minMsize ≤ msize) (hd : kind = .directory) :
    Always Wire.Step (Handle.nextEntry fid fuel) h s log (Engaged P kind msize base) := by
  induction fuel generalizing h s log with
  | zero => exact .throw (hc.engaged (.error rfl))
  | succ fuel ih =>
    refine .get_bind ?_
    have hpending := fun e he => hc.pending e (skipDots_subset h.position h.pending he)
    generalize Handle.skipDots h.position h.pending = skipped at hpending
    obtain ⟨position, pending⟩ := skipped
    refine .set_bind ?_
    have hc : Handle.Conduct P kind msize base { h with position, pending } s log :=
      ⟨hc.same, hc.own, hpending, hc.bound⟩
    cases pending with
    | cons entry entries =>
      refine hc.ofClient_bind (hc.entryInfo hs hd (hpending entry (List.mem_cons_self ..))) ?_
      intro info t log' hc
      exact .set_bind (.pure ⟨.ok _, hc.same, hc.own,
        fun e he => hpending e (List.mem_cons_of_mem _ he), hc.bound⟩)
    | nil =>
      show Always _ (if h.exhausted then _ else _) _ _ _ _
      by_cases he : h.exhausted = true
      · rw [if_pos he]
        exact .pure (hc.engaged (.ok _))
      · rw [if_neg he]
        have hleast : minMsize ≤ s.msize := hc.bound.msize ▸ hs
        refine .session_bind (Always.ofClient_bind (Session.Query.always_listed hleast) ?_ ?_)
        · intro entries t log' ⟨ht, ha, hentered, hlisted⟩
          have hc := hc.rebound (hc.bound.entered (congrArg Session.msize ht) hentered
            fun _ _ _ hb => by cases hb)
          cases entries with
          | nil => exact .set_bind (.pure ⟨.ok _, hc.same, hc.own, hc.pending, hc.bound⟩)
          | cons entry entries =>
            have hlisted := hc.bound.msize ▸ ht ▸ hlisted _ rfl
            exact .set_bind (ih ⟨hc.same, hc.own, hlisted, hc.bound⟩)
        · intro e t log' ⟨ht, ha, hentered, _⟩
          exact ⟨ha.of_error, hc.rebound (hc.bound.entered (congrArg Session.msize ht) hentered
            fun _ _ _ hb => by cases hb)⟩

/-! ## Mistakes -/

/-- What is engaged is conducted. -/
theorem conducted {x : HandleClient α}
    (hx : Always Wire.Step x h s log (Engaged P kind msize base)) :
    Always Wire.Step x h s log (Conducted P kind msize base) :=
  hx.mono fun _ _ _ _ hr => ⟨.inl hr.1, hr.2⟩

/-- Nothing has been sent. -/
theorem unsent {r : Except Error α} (hc : h.Conduct P kind msize log s log) :
    h.Conducted P kind msize log r s log := ⟨.inr rfl, hc⟩

theorem map {x : HandleClient α} {f : α → β}
    (hx : Always Wire.Step x h s log (Conducted P kind msize base)) :
    Always Wire.Step (f <$> x) h s log (Conducted P kind msize base) :=
  .map (hx.mono fun _ _ _ _ hr => ⟨hr.1.imp_left fun ha => ha.map f, hr.2⟩)

theorem readData {wanted : Nat} (hc : h.Conduct P kind msize log s log) (hs : minMsize ≤ msize) :
    Always Wire.Step (Handle.readData wanted) h s log (Conducted P kind msize log) := by
  refine .get_bind (.refuse (fun _ => hc.unsent) fun _ => conducted ?_)
  exact bind (hc.ensureOpen hs) fun fid g t log' hg => .get_bind (hg.readFrom hs)

theorem readEntry (hc : h.Conduct P kind msize log s log) (hs : minMsize ≤ msize) :
    Always Wire.Step Handle.readEntry h s log (Conducted P kind msize log) := by
  refine .get_bind (.refuse (fun _ => hc.unsent) fun hk => conducted ?_)
  have hd : kind = .directory := hc.same.symm.trans (not_not.1 hk)
  exact bind (hc.ensureOpen hs) fun fid g t log' hg => hg.nextEntry hs hd

theorem linkTarget (hc : h.Conduct P kind msize log s log) (hs : minMsize ≤ msize) :
    Always Wire.Step Handle.linkTarget h s log (Conducted P kind msize log) := by
  refine .get_bind (.refuse (fun _ => hc.unsent) fun _ => conducted ?_)
  cases htarget : h.target with
  | some target => exact .pure (hc.engaged (.ok _))
  | none =>
    have hread : Client.Always Wire.Step (Session.Query.readlink h.location.fid).perform s log
        (Session.Sends P msize log) := hc.bound.plain hs rfl
    exact hc.ofClient_bind hread fun target t log' hc =>
      .set_bind (.pure ⟨.ok _, hc.same, hc.own, hc.pending, hc.bound⟩)

theorem readLink {room : Nat} (hc : h.Conduct P kind msize log s log) (hs : minMsize ≤ msize) :
    Always Wire.Step (Handle.readLink room) h s log (Conducted P kind msize log) := by
  refine (hc.linkTarget hs).bind (fun target g t log' hg => ?_) fun e g t log' hg => ?_
  · exact .refuse (fun _ => ⟨.inl (.error rfl), hg.2⟩) fun _ => .pure ⟨.inl (.ok _), hg.2⟩
  · exact ⟨hg.1.imp_left Accepted.of_error, hg.2⟩

theorem read {room : Nat} (hc : h.Conduct P kind msize log s log) (hs : minMsize ≤ msize) :
    Always Wire.Step (Handle.read room) h s log (Conducted P kind msize log) := by
  refine .get_bind ?_
  cases h.kind with
  | regular => exact map (hc.readData hs)
  | directory => exact map (hc.readEntry hs)
  | symlink => exact map (hc.readLink hs)

theorem getInfo (hc : h.Conduct P kind msize log s log) (hs : minMsize ≤ msize) :
    Always Wire.Step Handle.getInfo h s log (Conducted P kind msize log) := by
  have hattr : Client.Always Wire.Step (Session.Query.getattr h.location.fid .all).perform s log
      (Session.Sends P msize log) := hc.bound.plain hs rfl
  exact .get_bind (conducted (hc.ofClient_bind hattr fun attr t log' hc =>
    .set_bind (.pure ⟨.ok _, hc.same, hc.own, hc.pending, hc.bound⟩)))

theorem setPosition {position : UInt64} (hc : h.Conduct P kind msize log s log) :
    Always Wire.Step (Handle.setPosition position) h s log (Conducted P kind msize log) := by
  refine .get_bind ?_
  show Always _ (if h.kind = .directory then _ else _) _ _ _ _
  by_cases hd : h.kind = .directory
  · rw [if_pos hd]
    exact .refuse (fun _ => hc.unsent) fun _ =>
      .pure ⟨.inr rfl, hc.same, hc.own, fun _ he => (by cases he), hc.bound⟩
  · rw [if_neg hd]
    exact .pure ⟨.inr rfl, hc.same, hc.own, hc.pending, hc.bound⟩

end Handle.Conduct

/-! ## Handles -/

namespace Session.Bound

open Client

variable {root location : Location} {path : String} {h : Handle}

/-- A handle that is new keeps no entries that cannot be walked to. A regular file is
opened in place, so that nothing is walked from for it. -/
theorem establish (hb : Bound P msize base s log) (hs : minMsize ≤ msize) :
    Always Wire.Step (Handle.establish root location path) s log fun r t log' =>
      Sends P msize base r t log' ∧
        ∀ h, r = .ok h → ∀ e ∈ h.pending, passable msize e.name = true := by
  let h := Handle.fresh root location path
  refine .establish_of_ensureOpen (R := Handle.Engaged P .regular msize base)
    (fun hk => ?_) (fun _ g t log' hg => ?_) (fun e g t log' hg => ?_) fun _ => ?_
  · have hc : h.Conduct P .regular msize base s log :=
      ⟨hk, fun hd => (by cases hd), fun _ he => (by cases he), hb⟩
    exact hc.ensureOpen hs
  · exact ⟨⟨.ok _, hg.2.bound⟩, fun g' hr => Except.ok.inj hr ▸ hg.2.pending⟩
  · exact (hg.2.bound.release hs).mono fun _ u log' ⟨_, hok, hq⟩ =>
      ⟨(), hok, ⟨hg.1.of_error, hq⟩, nofun⟩
  · exact ⟨⟨.ok _, hb⟩, fun g hr e he => by cases Except.ok.inj hr; cases he⟩

/-- Giving back what a handle holds is no mistake. -/
theorem close (hb : Bound P msize base s log) (hs : minMsize ≤ msize) :
    Always Wire.Step h.close s log (Sends P msize base) := by
  have clunked {fid : UInt32} {t : Session} {log' : Wire} (hb : Bound P msize base t log') :
      Always Wire.Step (Session.clunk fid) t log' (Sends P msize base) := by
    have hop : Always Wire.Step (Query.clunk fid).perform t log' (Sends P msize base) :=
      hb.plain hs rfl
    exact hop
  refine .close_of_clunk (R := Sends P msize base) (fun _ => clunked hb) (fun _ _ _ => clunked hb)
    fun clone t log' hq => (clunked hq.2).mono fun own u log' hown => ?_
  cases clone with
  | ok _ => exact hown
  | error e => exact ⟨hq.1.of_error, hown.2⟩

theorem fsInfo {fid : UInt32} (hb : Bound P msize base s log) (hs : minMsize ≤ msize) :
    Always Wire.Step (do
      let stat ← Session.statfs fid
      return FsInfo.ofFsStat stat) s log (Sends P msize base) := by
  have hstat : Always Wire.Step (Query.statfs fid).perform s log (Sends P msize base) :=
    hb.plain hs rfl
  exact Sends.bind hstat fun _ _ _ hq => .pure ⟨.ok _, hq⟩

end Session.Bound

end NineP
