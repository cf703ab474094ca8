import NineP.Proofs.Volume.Custody
import NineP.Proofs.Volume.Handles

/-!
# Handles and the discipline of fids

A handle on a regular file has opened its own fid. A handle on a directory opens a
clone of its own, and a handle on a link opens nothing (`Handle.Settled`), so that
a client never tries to open the own fid of either (`Handle.shut`). Whatever a
handle is used for and whatever comes of it, its client keeps to the discipline of
fids (`Minded`):

* `Custody.resolve`: a path is resolved to a fid that was never opened;
* `Custody.ensureOpen`: a directory is read from a fid that was opened for it;
* `Custody.establish`: a regular file is opened once, when the handle is made;
* `Custody.close`: a handle that is closed gives back what it holds.
-/

namespace NineP

/-- A handle on a regular file is open, and one on a link never is. -/
structure Handle.Settled (h : Handle) : Prop where
  regular : h.kind = .regular → h.ioFid = some h.location.fid
  symlink : h.kind = .symlink → h.ioFid = none

/-- The fid of a handle that is never opened. -/
def Handle.shut (h : Handle) : List UInt32 :=
  if h.kind = .regular then [] else [h.location.fid]

/-- The handle after an operation: it is still the handle `before`, and the client
has its fids in custody beside those of other handles. -/
structure Minded (before : Handle) (rest opened shut : List UInt32) (idle : Nat)
    (r : Except Error α) (h : Handle) (s : Session) (log : Wire) : Prop where
  root : h.root = before.root
  kind : h.kind = before.kind
  fid : h.location.fid = before.location.fid
  settled : h.Settled
  custody : Custody (h.fids ++ rest) (h.ioFid.toList ++ opened) shut (idle + unsent r) s log

namespace Minded

variable {rest opened shut : List UInt32} {idle : Nat} {before g h : Handle} {s : Session}
  {log : Wire} {r : Except Error α}

/-- Only the root, the kind and the own fid of the handle before count. -/
theorem since (hm : Minded g rest opened shut idle r h s log) (hroot : g.root = before.root)
    (hkind : g.kind = before.kind) (hfid : g.location.fid = before.location.fid) :
    Minded before rest opened shut idle r h s log :=
  { hm with
    root := hm.root.trans hroot
    kind := hm.kind.trans hkind
    fid := hm.fid.trans hfid }

/-- Only the result is another. -/
theorem result {r' : Except Error β} (hm : Minded before rest opened shut idle r h s log)
    (hr : unsent r' = unsent r) : Minded before rest opened shut idle r' h s log :=
  { hm with custody := hr ▸ hm.custody }

/-- A failure that is not for want of a request leaves the handle as it is. -/
theorem error {e : Error} (he : e.isUnsent = false) (hs : h.Settled)
    (hb : Custody (h.fids ++ rest) (h.ioFid.toList ++ opened) shut idle s log) :
    Minded h rest opened shut idle (.error e : Except Error α) h s log where
  root := rfl
  kind := rfl
  fid := rfl
  settled := hs
  custody := by rwa [unsent_error he]

end Minded

/-- A handle that is new has its fids in custody beside those of others. -/
structure Admitted (root : Location) (rest opened shut : List UInt32) (idle : Nat) (h : Handle)
    (s : Session) (log : Wire) : Prop where
  root : h.root = root
  settled : h.Settled
  custody : Custody (h.fids ++ rest) (h.ioFid.toList ++ opened) (h.shut ++ shut) idle s log

/-- After an attempt to open a fid that was never tried, to read the handle from it:
a clone that could not be opened has been given back. -/
def OpenedAs (before : Handle) (fid : UInt32) (held opened shut : List UInt32) (idle : Nat)
    (r : Except Error UInt32) (h : Handle) (s : Session) (log : Wire) : Prop :=
  match r with
  | .ok found => found = fid ∧ h.root = before.root ∧ h.kind = before.kind ∧
      h.location.fid = before.location.fid ∧ h.ioFid = some fid ∧
      Custody (fid :: held) (fid :: opened) shut idle s log
  | .error _ => h = before ∧
      Custody (if fid = before.location.fid then fid :: held else held) opened shut
        (idle + unsent r) s log

namespace Handle.Settled

variable {h : Handle}

theorem sound (hs : h.Settled) : h.Sound := by
  intro hd
  cases hk : h.kind with
  | regular => exact .inr (hs.regular hk)
  | directory => exact absurd hk hd
  | symlink => exact .inl (hs.symlink hk)

/-- A handle is read from a fid that it holds. -/
theorem mem_fids {fid : UInt32} (hs : h.Settled) (hio : h.ioFid = some fid) : fid ∈ h.fids := by
  rw [Handle.mem_fids]
  by_cases hd : h.kind = .directory
  · exact .inr ⟨hd, hio⟩
  · rcases hs.sound hd with hnone | hown
    · rw [hio] at hnone
      cases hnone
    · rw [hio] at hown
      exact .inl (Option.some.inj hown)

/-- A handle that is not read from its own fid is that of a directory. -/
theorem fids_of_clone {fid : UInt32} (hs : h.Settled) (hio : h.ioFid = some fid)
    (hown : fid ≠ h.location.fid) : h.fids = [h.location.fid, fid] := by
  have hd : h.kind = .directory := Decidable.byContradiction fun hd => by
    rcases hs.sound hd with hnone | hsome
    · rw [hio] at hnone
      cases hnone
    · rw [hio] at hsome
      exact hown (Option.some.inj hsome)
  rw [Handle.fids_of_dir hd, hio]
  rfl

end Handle.Settled

namespace Custody

variable {held rest opened shut : List UInt32} {idle : Nat} {s : Session} {log : Wire}

/-! ## Paths -/

section

open Client

/-- A fid is given back, and that never fails. -/
theorem release {fid : UInt32} (h : Custody (fid :: held) opened shut idle s log) :
    Always Wire.Step (Session.release fid) s log (Yields fun _ => Custody held opened shut idle) :=
  h.clunk.attempt.bind_of_yields fun _ _ _ hq => .pure ⟨(), rfl, hq.custody⟩

theorem releaseAny {fid : Option UInt32} (h : Custody (fid.toList ++ held) opened shut idle s log) :
    Always Wire.Step (Session.releaseAny fid) s log
      (Yields fun _ => Custody held opened shut idle) := by
  cases fid with
  | none => exact .pure ⟨(), rfl, h⟩
  | some fid => exact release h

theorem gained_bind {step : Wire → Call → Answer → Wire → Prop} {x : Client α} {f : α → Client β}
    {gain : α → Session → Wire → Prop} {gain' : β → Session → Wire → Prop}
    (hx : Always step x s log (Gained gain held opened shut idle))
    (hf : ∀ a t log', gain a t log' →
      Always step (f a) t log' (Gained gain' held opened shut idle)) :
    Always step (x >>= f) s log (Gained gain' held opened shut idle) :=
  hx.bind hf fun _ _ _ h => h

/-- Each step walks from the fid of the one before, which is held until then. -/
theorem descend {root : Qid} {owned : Option UInt32} {current : Location} {names : List String}
    (h : Custody (owned.toList ++ held) opened (owned.toList ++ shut) idle s log)
    (hc : current.fid ∈ owned.toList ++ held) (hn : names = [] → owned = some current.fid) :
    Always Wire.Step (Session.descend root owned current names) s log
      (Gained (fun l => Custody (l.fid :: held) opened (l.fid :: shut) idle)
        held opened shut idle) := by
  induction names generalizing owned current s log with
  | nil =>
    rw [hn rfl] at h
    exact .pure h
  | cons name names ih =>
    -- What is known of the fid of the step before goes with it.
    have forget {held : List UInt32} (new : List UInt32) {idle : Nat} {t : Session} {log' : Wire}
        (h : Custody held opened (new ++ (owned.toList ++ shut)) idle t log') :
        Custody held opened (new ++ shut) idle t log' :=
      h.weaken (List.Sublist.refl _) (List.Subset.refl _)
        ((List.Sublist.refl _).append (List.sublist_append_right ..))
    refine Always.descend_cons (fun _ => ?_) fun _ => ?_
    · refine (releaseAny h).mono fun _ t log' ⟨_, hr, hq⟩ => ⟨(), hr, .error ?_ rfl⟩
      exact forget [] hq
    · refine h.freshFid.bind_of_yields fun fid t log' hq => ?_
      have hwalk := hq.walk [name] hc (Nat.le_refl 1)
      refine hwalk.attempt.bind_of_yields fun step u log' hstep => ?_
      cases step with
      | error e =>
        refine (releaseAny hstep).bind_of_yields fun _ v log' hq => .throw ?_
        exact forget [] hq
      | ok qids =>
        -- The fid of this step takes the place of the one before it.
        have hswap : (fid :: (owned.toList ++ held)).Perm (owned.toList ++ fid :: held) :=
          List.perm_middle.symm
        have hstep : Custody (fid :: (owned.toList ++ held)) opened
            ([fid] ++ (owned.toList ++ shut)) idle u log' := hstep
        refine (releaseAny (hstep.perm hswap)).bind_of_yields fun _ v log' hq => ?_
        have hq := forget [fid] hq
        cases qids with
        | nil =>
          refine .throw (.error ?_ rfl)
          exact hq.weaken (List.sublist_cons_self ..) (List.Subset.refl _)
            (List.sublist_cons_self ..)
        | cons qid qids =>
          have hq : Custody ((some fid).toList ++ held) opened ((some fid).toList ++ shut) idle v
            log' := hq
          exact ih hq (List.mem_cons_self ..) fun _ => rfl

theorem resolve {root start : Location} {path : String}
    (h : Custody held opened shut idle s log) (hr : root.fid ∈ held) (hs : start.fid ∈ held) :
    Always Wire.Step (Session.resolve root start path) s log
      (Gained (fun l => Custody (l.fid :: held) opened (l.fid :: shut) idle)
        held opened shut idle) := by
  have horigin : (if Path.isAbsolute path then root else start).fid ∈ held := by
    split
    · exact hr
    · exact hs
  refine Always.resolve_of_descend (fun _ => .error h rfl) (fun _ _ => ?_) fun _ hnames => ?_
  · refine h.freshFid.bind_of_yields fun fid t log' hq => ?_
    exact gained_bind (hq.walk [] horigin (Nat.zero_le 1)) fun _ u log' hq => .pure hq
  · have h : Custody ((none : Option UInt32).toList ++ held) opened
      ((none : Option UInt32).toList ++ shut) idle s log := h
    exact descend h horigin fun hnil => absurd hnil hnames

/-! ## Opening -/

variable {h : Handle} {fid : UInt32}

/-- The attributes of an entry come through a fid that is given back. -/
theorem entryInfo {entry : DirEntry} (hb : Custody held opened shut idle s log)
    (hh : h.location.fid ∈ held) :
    Always Wire.Step (h.entryInfo entry) s log
      (Gained (fun _ => Custody held opened shut idle) held opened shut idle) := by
  refine hb.freshFid.bind_of_yields fun fid t log' hq => ?_
  refine gained_bind (hq.walk [entry.name] hh (Nat.le_refl 1)) fun _ u log' hw => ?_
  have hw := hw.weaken (List.Sublist.refl _) (List.Subset.refl _) (List.sublist_cons_self fid shut)
  have hattr := hw.use (.getattr fid .all) rfl (List.mem_cons_self ..) (.inl rfl)
  refine hattr.attempt.bind_of_yields fun attr v log' ha => ?_
  refine (release ha.unsent).bind_of_yields fun _ w log' hq => ?_
  cases attr with
  | ok attr => exact .pure hq
  | error e => exact .throw hq

end

section

open HandleClient

variable {h : Handle} {fid : UInt32}

theorem openAs (hb : Custody (fid :: held) opened (fid :: shut) idle s log) :
    Always Wire.Step (h.openOn fid) h s log (OpenedAs h fid held opened shut idle) := by
  have hopen := hb.lopen Handle.readOnlyFlags (List.mem_cons_self ..)
  refine Always.openOn_of_lopen hopen (fun _ _ t log' hr => ⟨rfl, rfl, rfl, rfl, rfl, hr⟩)
    (fun hown e t log' hr => ⟨rfl, ?_⟩) fun hown e t log' hr => ?_
  · rw [if_pos hown]
    exact hr
  · refine (release hr).mono fun _ u log' ⟨_, hr, hq⟩ => ⟨(), hr, rfl, ?_⟩
    rw [if_neg hown]
    exact hq

/-- A handle is read from a fid that has been opened. For a directory that is a
clone of its own. -/
theorem ensureOpen (hs : h.Settled) (hk : h.kind ≠ .symlink)
    (hb : Custody (h.fids ++ rest) (h.ioFid.toList ++ opened) shut idle s log) :
    Always Wire.Step Handle.ensureOpen h s log fun r g t log' =>
      Minded h rest opened shut idle r g t log' ∧ ∀ fid, r = .ok fid → g.ioFid = some fid := by
  have hnot (hio : h.ioFid = none) : h.kind = .directory := by
    cases hkind : h.kind with
    | regular => cases hio.symm.trans (hs.regular hkind)
    | directory => rfl
    | symlink => exact absurd hkind hk
  refine Always.ensureOpen_of_openOn (fun fid hio => ⟨⟨rfl, rfl, rfl, hs, hb⟩, fun _ hr => ?_⟩)
    (fun hio hd => ?_) fun hio hd => absurd (hnot hio) hd
  · exact hio.trans (congrArg some (Except.ok.inj hr))
  have hfids : h.fids = [h.location.fid] := Handle.fids_of_none hio
  have hown : h.location.fid ∈ h.fids ++ rest := by
    rw [hfids]
    exact List.mem_cons_self ..
  refine Always.ofClient_bind_of_yields hb.freshFid fun fid t log' hq => ?_
  refine Always.ofClient_bind (hq.walk [] hown (Nat.zero_le 1)) (fun _ u log' hw => ?_)
    fun e u log' hw => ⟨⟨rfl, rfl, rfl, hs, hw⟩, nofun⟩
  refine (openAs hw).mono fun r g v log' hr => ?_
  cases r with
  | ok fid' =>
    obtain ⟨rfl, hroot, hkind, hfid, hopened, hr⟩ := hr
    have hdir := hkind.trans hd
    refine ⟨⟨hroot, hkind, hfid, ⟨fun hreg => ?_, fun hlink => ?_⟩, ?_⟩, fun _ hr => ?_⟩
    · cases hdir.symm.trans hreg
    · cases hdir.symm.trans hlink
    · rw [hfids, hio] at hr
      rw [Handle.fids_of_dir hdir, hfid, hopened]
      exact hr.perm (List.Perm.swap ..)
    · rw [hopened, Except.ok.inj hr]
  | error e =>
    obtain ⟨rfl, hr⟩ := hr
    refine ⟨⟨rfl, rfl, rfl, hs, ?_⟩, nofun⟩
    split at hr
    · exact hr.weaken (List.sublist_cons_self ..) (List.Subset.refl _) (List.Sublist.refl _)
    · exact hr

theorem ensureOpen_bind {f : UInt32 → HandleClient α} (hs : h.Settled) (hk : h.kind ≠ .symlink)
    (hb : Custody (h.fids ++ rest) (h.ioFid.toList ++ opened) shut idle s log)
    (hf : ∀ fid g t log', g.Settled → g.ioFid = some fid →
      Custody (g.fids ++ rest) (g.ioFid.toList ++ opened) shut idle t log' →
      Always Wire.Step (f fid) g t log' (Minded g rest opened shut idle)) :
    Always Wire.Step (Handle.ensureOpen >>= f) h s log (Minded h rest opened shut idle) :=
  (ensureOpen hs hk hb).bind
    (fun fid g t log' ⟨hg, hio⟩ =>
      (hf fid g t log' hg.settled (hio fid rfl) hg.custody).mono fun _ _ _ _ hr =>
        hr.since hg.root hg.kind hg.fid)
    fun _ _ _ _ he => he.1.result rfl

/-! ## Reading -/

/-- An operation of the session that leaves the fids as they are. -/
theorem held_bind {x : Client α} {f : α → HandleClient β} (hs : h.Settled)
    (hx : x.Always Wire.Step s log
      (Gained (fun _ => Custody (h.fids ++ rest) (h.ioFid.toList ++ opened) shut idle)
        (h.fids ++ rest) (h.ioFid.toList ++ opened) shut idle))
    (hf : ∀ a t log', Custody (h.fids ++ rest) (h.ioFid.toList ++ opened) shut idle t log' →
      Always Wire.Step (f a) h t log' (Minded h rest opened shut idle)) :
    Always Wire.Step (HandleClient.ofClient x >>= f) h s log (Minded h rest opened shut idle) :=
  Always.ofClient_bind hx hf fun _ _ _ hq => ⟨rfl, rfl, rfl, hs, hq⟩

theorem minded_bind {x : HandleClient α} {f : α → HandleClient β}
    (hx : Always Wire.Step x h s log (Minded h rest opened shut idle))
    (hf : ∀ a g t log', Minded h rest opened shut idle (.ok a : Except Error α) g t log' →
      Always Wire.Step (f a) g t log' (Minded g rest opened shut idle)) :
    Always Wire.Step (x >>= f) h s log (Minded h rest opened shut idle) :=
  hx.bind (fun a g t log' hg => (hf a g t log' hg).mono fun _ _ _ _ hr =>
    hr.since hg.root hg.kind hg.fid)
    fun _ _ _ _ he => he.result rfl

/-- The handle is changed, but none of its fids. -/
theorem minded_set {g : Handle} {f : PUnit → HandleClient α} (hroot : g.root = h.root)
    (hkind : g.kind = h.kind) (hfid : g.location.fid = h.location.fid)
    (hx : Always Wire.Step (f ⟨⟩) g s log (Minded g rest opened shut idle)) :
    Always Wire.Step (set g >>= f) h s log (Minded h rest opened shut idle) :=
  .set_bind (hx.mono fun _ _ _ _ hr => hr.since hroot hkind hfid)

theorem minded_map {x : HandleClient α} {f : α → β}
    (hx : Always Wire.Step x h s log (Minded h rest opened shut idle)) :
    Always Wire.Step (f <$> x) h s log (Minded h rest opened shut idle) :=
  .map (hx.mono fun r _ _ _ hr => hr.result (unsent_map f r))

/-- What is read comes from a fid that is held and has been opened. -/
theorem readFrom {start : UInt64} {fuel wanted : Nat} {acc : Bytes} (hs : h.Settled)
    (hio : h.ioFid = some fid)
    (hb : Custody (h.fids ++ rest) (h.ioFid.toList ++ opened) shut idle s log) :
    Always Wire.Step (Handle.readFrom fid start fuel wanted acc) h s log
      (Minded h rest opened shut idle) := by
  induction fuel generalizing wanted acc h s log with
  | zero => exact .pure ⟨rfl, rfl, rfl, hs, hb⟩
  | succ fuel ih =>
    cases wanted with
    | zero => exact .pure ⟨rfl, rfl, rfl, hs, hb⟩
    | succ wanted =>
      let count := UInt32.ofNat (min s.readCeiling.toNat (wanted + 1))
      have hread := hb.use (.read fid h.position count) rfl
        (List.mem_append_left _ (hs.mem_fids hio)) (.inr (by rw [hio]; exact List.mem_cons_self ..))
      refine .get_bind (.session_bind (Always.ofClient_bind_of_yields hread.attempt ?_))
      intro r t log' hr
      -- Whatever comes of it, only the position changes.
      have hset (position : UInt64) : { h with position }.Settled := ⟨hs.regular, hs.symlink⟩
      cases r with
      | error e => exact .set_bind (.throw ⟨rfl, rfl, rfl, hset start, hr.unsent⟩)
      | ok data =>
        cases data with
        | nil => exact .pure ⟨rfl, rfl, rfl, hs, hr.custody⟩
        | cons byte bytes => exact .relies (minded_set rfl rfl rfl (ih (hset _) hio hr.custody))

theorem readData {wanted : Nat} (hs : h.Settled)
    (hb : Custody (h.fids ++ rest) (h.ioFid.toList ++ opened) shut idle s log) :
    Always Wire.Step (Handle.readData wanted) h s log (Minded h rest opened shut idle) := by
  refine .get_bind (.refuse (fun _ => .error rfl hs hb) fun hk => ?_)
  have hlink : h.kind ≠ .symlink := fun h => hk (by rw [h]; decide)
  exact ensureOpen_bind hs hlink hb fun fid g t log' hg hio hq => .get_bind (readFrom hg hio hq)

theorem nextEntry {fuel : Nat} (hs : h.Settled) (hio : h.ioFid = some fid)
    (hb : Custody (h.fids ++ rest) (h.ioFid.toList ++ opened) shut idle s log) :
    Always Wire.Step (Handle.nextEntry fid fuel) h s log (Minded h rest opened shut idle) := by
  induction fuel generalizing h s log with
  | zero => exact .throw (.error rfl hs hb)
  | succ fuel ih =>
    refine .get_bind ?_
    -- Whatever is passed over, it changes no fid.
    generalize Handle.skipDots h.position h.pending = skipped
    obtain ⟨position, pending⟩ := skipped
    have hset (position : UInt64) (pending : List DirEntry) (exhausted : Bool) :
        { h with position, pending, exhausted }.Settled := ⟨hs.regular, hs.symlink⟩
    refine minded_set rfl rfl rfl ?_
    cases pending with
    | cons entry entries =>
      have hown : h.location.fid ∈ h.fids ++ rest := List.mem_cons_self ..
      exact held_bind (hset ..) (hb.entryInfo hown) fun info t log' hq =>
        .set_bind (.pure ⟨rfl, rfl, rfl, hset .., hq⟩)
    | nil =>
      show Always _ (if h.exhausted then _ else _) _ _ _ _
      by_cases he : h.exhausted = true
      · rw [if_pos he]
        exact .pure ⟨rfl, rfl, rfl, hset .., hb⟩
      · rw [if_neg he]
        have hlist := hb.use (.readdir fid position s.readdirCeiling) rfl
          (List.mem_append_left _ (hs.mem_fids hio))
          (.inr (by rw [hio]; exact List.mem_cons_self ..))
        refine .session_bind (held_bind (hset ..) (hlist.mono fun _ _ _ h => h.gained) ?_)
        intro entries t log' hq
        cases entries with
        | nil => exact .set_bind (.pure ⟨rfl, rfl, rfl, hset .., hq⟩)
        | cons entry entries => exact minded_set rfl rfl rfl (ih (hset ..) hio hq)

theorem readEntry (hs : h.Settled)
    (hb : Custody (h.fids ++ rest) (h.ioFid.toList ++ opened) shut idle s log) :
    Always Wire.Step Handle.readEntry h s log (Minded h rest opened shut idle) := by
  refine .get_bind (.refuse (fun _ => .error rfl hs hb) fun hk => ?_)
  have hlink : h.kind ≠ .symlink := fun h => hk (by rw [h]; decide)
  exact ensureOpen_bind hs hlink hb fun fid g t log' hg hio hq => nextEntry hg hio hq

theorem linkTarget (hs : h.Settled)
    (hb : Custody (h.fids ++ rest) (h.ioFid.toList ++ opened) shut idle s log) :
    Always Wire.Step Handle.linkTarget h s log (Minded h rest opened shut idle) := by
  refine .get_bind (.refuse (fun _ => .error rfl hs hb) fun _ => ?_)
  cases htarget : h.target with
  | some target => exact .pure ⟨rfl, rfl, rfl, hs, hb⟩
  | none =>
    have hread := hb.use (.readlink h.location.fid) rfl (List.mem_cons_self ..) (.inl rfl)
    refine held_bind hs (hread.mono fun _ _ _ h => h.gained) fun target t log' hq => ?_
    exact .set_bind (.pure ⟨rfl, rfl, rfl, ⟨hs.regular, hs.symlink⟩, hq⟩)

theorem readLink {room : Nat} (hs : h.Settled)
    (hb : Custody (h.fids ++ rest) (h.ioFid.toList ++ opened) shut idle s log) :
    Always Wire.Step (Handle.readLink room) h s log (Minded h rest opened shut idle) := by
  refine minded_bind (linkTarget hs hb) fun target g t log' hg => ?_
  exact .refuse (fun _ => .error rfl hg.settled hg.custody) fun _ =>
    .pure ⟨rfl, rfl, rfl, hg.settled, hg.custody⟩

theorem read {room : Nat} (hs : h.Settled)
    (hb : Custody (h.fids ++ rest) (h.ioFid.toList ++ opened) shut idle s log) :
    Always Wire.Step (Handle.read room) h s log (Minded h rest opened shut idle) := by
  refine .get_bind ?_
  cases hk : h.kind with
  | regular => exact minded_map (readData hs hb)
  | directory => exact minded_map (readEntry hs hb)
  | symlink => exact minded_map (readLink hs hb)

theorem getInfo (hs : h.Settled)
    (hb : Custody (h.fids ++ rest) (h.ioFid.toList ++ opened) shut idle s log) :
    Always Wire.Step Handle.getInfo h s log (Minded h rest opened shut idle) := by
  have hattr := hb.use (.getattr h.location.fid .all) rfl (List.mem_cons_self ..) (.inl rfl)
  refine .get_bind (held_bind hs (hattr.mono fun _ _ _ h => h.gained) fun attr t log' hq => ?_)
  exact .set_bind (.pure ⟨rfl, rfl, rfl, ⟨hs.regular, hs.symlink⟩, hq⟩)

theorem setPosition {position : UInt64} (hs : h.Settled)
    (hb : Custody (h.fids ++ rest) (h.ioFid.toList ++ opened) shut idle s log) :
    Always Wire.Step (Handle.setPosition position) h s log (Minded h rest opened shut idle) := by
  refine .get_bind ?_
  show Always _ (if h.kind = .directory then _ else _) _ _ _ _
  by_cases hd : h.kind = .directory
  · rw [if_pos hd]
    exact .refuse (fun _ => .error rfl hs hb) fun _ =>
      .pure ⟨rfl, rfl, rfl, ⟨hs.regular, hs.symlink⟩, hb⟩
  · rw [if_neg hd]
    exact .pure ⟨rfl, rfl, rfl, ⟨hs.regular, hs.symlink⟩, hb⟩

end

/-! ## Handles -/

section

open Client

variable {root location : Location} {path : String} {h : Handle}

/-- A handle that is new owns the fid that it was given. It opens it at once if
that is the fid of a regular file, and never if not. -/
theorem establish (hb : Custody (location.fid :: rest) opened (location.fid :: shut) idle s log) :
    Always Wire.Step (Handle.establish root location path) s log
      (Gained (Admitted root rest opened shut idle) rest opened shut idle) := by
  let h := Handle.fresh root location path
  refine Always.establish_of_ensureOpen (R := fun r g t log' =>
      OpenedAs h location.fid rest opened shut idle r g t log' ∧ h.kind = .regular)
    (fun hk => .ensureOpen_of_openOn nofun (fun _ hd => ?_) fun _ _ => ?_)
    (fun fid g t log' hg => ?_) (fun e g t log' hg => ?_) fun hk => ?_
  · cases hk.symm.trans hd
  · exact (openAs (h := h) hb).mono fun _ _ _ _ hg => ⟨hg, hk⟩
  · obtain ⟨⟨rfl, hroot, hkind, hfid, hio, hq⟩, hk⟩ := hg
    have hreg := hkind.trans hk
    refine ⟨hroot, ⟨fun _ => hio.trans (congrArg some hfid.symm), fun hl => ?_⟩, ?_⟩
    · cases hreg.symm.trans hl
    · rw [Handle.fids_of_ne (by rw [hreg]; decide), hio, hfid, Handle.shut, if_pos hreg]
      exact hq
  · obtain ⟨⟨rfl, hq⟩, -⟩ := hg
    rw [if_pos (show location.fid = h.location.fid from rfl)] at hq
    exact release hq
  · refine ⟨rfl, ⟨fun hreg => absurd hreg hk, fun _ => rfl⟩, ?_⟩
    rw [Handle.fids_of_none rfl, Handle.shut, if_neg hk]
    exact hb

/-- A path is resolved to a fid that a new handle takes over. -/
theorem resolve_establish {start : Location} (hb : Custody rest opened shut idle s log)
    (hr : root.fid ∈ rest) (hs : start.fid ∈ rest) {name : String} :
    Always Wire.Step (do
      let location ← Session.resolve root start path
      Handle.establish root location name) s log
      (Gained (Admitted root rest opened shut idle) rest opened shut idle) :=
  gained_bind (hb.resolve hr hs) fun _ _ _ hq => hq.establish

theorem openPath (hb : Custody rest opened shut idle s log) (hr : h.root.fid ∈ rest)
    (hs : h.location.fid ∈ rest) :
    Always Wire.Step (h.openPath path) s log
      (Gained (Admitted h.root rest opened shut idle) rest opened shut idle) := by
  rw [Handle.openPath]
  exact .refuse (fun _ => .error hb rfl) fun _ => resolve_establish hb hr hs

/-- The figures are those of the file system that any fid lies in. -/
theorem fsInfo {fid : UInt32} (hb : Custody held opened shut idle s log) (hf : fid ∈ held) :
    Always Wire.Step (do
      let stat ← Session.statfs fid
      return FsInfo.ofFsStat stat) s log
      (Gained (fun _ => Custody held opened shut idle) held opened shut idle) := by
  have hstat := hb.use (.statfs fid) rfl hf (.inl rfl)
  exact gained_bind (hstat.mono fun _ _ _ h => h.gained) fun _ _ _ hq => .pure hq

/-- A handle that is closed holds no fid, whatever the server says to it. -/
theorem close (hs : h.Settled) (hb : Custody (h.fids ++ rest) opened shut idle s log) :
    Always Wire.Step h.close s log
      (Gained (fun _ => Custody rest opened shut idle) rest opened shut idle) := by
  refine Always.close_of_clunk (R := Retained (h.location.fid :: rest) opened shut idle)
    (fun hown => ?_) (fun fid hio hne => ?_) fun clone t log' hq => ?_
  · have hb : Custody (h.location.fid :: rest) opened shut idle s log := by
      cases hio : h.ioFid with
      | none => rwa [Handle.fids_of_none hio] at hb
      | some fid =>
        -- What else a handle may hold does not count: its own fid is given back.
        refine hb.weaken ?_ (List.Subset.refl _) (List.Sublist.refl _)
        exact List.Sublist.cons_cons _ (List.sublist_append_right ..)
    exact hb.clunk.mono fun _ _ _ hown => hown.gained
  · rw [hs.fids_of_clone hio hne] at hb
    exact (hb.perm (List.Perm.swap fid h.location.fid rest)).clunk
  · refine hq.unsent.clunk.mono fun own u log' hown => ?_
    cases clone with
    | ok _ => exact hown.gained
    | error e => exact hown.custody

end

end Custody

end NineP
