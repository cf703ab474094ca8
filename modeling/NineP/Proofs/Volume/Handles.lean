import NineP.Proofs.Handle.Runs
import NineP.Proofs.Volume.Resolve

/-!
# Fids of handles

A handle holds its own fid, and the handle of a directory also the clone that it
has opened for reading, once it has done so (`Handle.fids`). No operation on a
handle leaves it with any other fid, whether it fails or not (`Tended`).

* `HandleClient.Always.ensureOpen`: a directory is opened on a clone, and a clone
  that cannot be opened is given back;
* `Client.Always.entryInfo`: the fid of an entry is given back;
* `Client.Always.establish`: a handle that cannot be opened gives its fid back;
* `Client.Always.close`: a handle that is closed holds no fid.
-/

namespace NineP

/-- The fids that a handle holds. -/
def Handle.fids (h : Handle) : List UInt32 :=
  h.location.fid :: if h.kind = .directory then h.ioFid.toList else []

/-- Only the handle of a directory reads from another fid than its own. -/
def Handle.Sound (h : Handle) : Prop :=
  h.kind ≠ .directory → h.ioFid = none ∨ h.ioFid = some h.location.fid

/-- The handle after an operation: it is still the handle `before`, and beside the
fids of other handles it holds its own. -/
structure Tended (before : Handle) (rest : List UInt32) (idle : Nat) (r : Except Error α)
    (h : Handle) (s : Session) (p : Peer) : Prop where
  kind : h.kind = before.kind
  fid : h.location.fid = before.location.fid
  sound : h.Sound
  balanced : Balanced (h.fids ++ rest) (idle + unsent r) s p

/-- A handle that is new holds its fids beside those of others. -/
def Opened (rest : List UInt32) (idle : Nat) (r : Except Error Handle) (s : Session) (p : Peer) :
    Prop :=
  Entered (fun h => h.fids ++ rest) rest idle r s p ∧ ∀ h, r = .ok h → h.Sound

namespace Handle

variable {h : Handle}

theorem fids_of_dir (hk : h.kind = .directory) : h.fids = h.location.fid :: h.ioFid.toList := by
  rw [fids, if_pos hk]

theorem fids_of_ne (hk : h.kind ≠ .directory) : h.fids = [h.location.fid] := by
  rw [fids, if_neg hk]

theorem mem_fids {fid : UInt32} :
    fid ∈ h.fids ↔ fid = h.location.fid ∨ h.kind = .directory ∧ h.ioFid = some fid := by
  rw [fids, List.mem_cons]
  by_cases hk : h.kind = .directory
  · rw [if_pos hk, Option.mem_toList]
    simp only [hk, true_and]
  · rw [if_neg hk]
    simp only [List.not_mem_nil, hk, false_and]

/-- A handle that has nothing opened holds its own fid only. -/
theorem fids_of_none (hio : h.ioFid = none) : h.fids = [h.location.fid] := by
  rw [fids, hio]
  exact congrArg _ (ite_self _)

theorem sound_of_none (hio : h.ioFid = none) : h.Sound := fun _ => .inl hio

end Handle

/-- A failure that is not for want of a request leaves the handle as it is. -/
theorem Tended.error {rest : List UInt32} {idle : Nat} {h : Handle} {s : Session} {p : Peer}
    {e : Error} (he : e.isUnsent = false) (hs : h.Sound) (hb : Balanced (h.fids ++ rest) idle s p) :
    Tended h rest idle (.error e : Except Error α) h s p where
  kind := rfl
  fid := rfl
  sound := hs
  balanced := by
    rw [unsent_error he]
    exact hb

/-- Only the kind and the own fid of the handle before count. -/
theorem Tended.since {rest : List UInt32} {idle : Nat} {before g h : Handle} {s : Session}
    {p : Peer} {r : Except Error α} (ht : Tended g rest idle r h s p) (hk : g.kind = before.kind)
    (hf : g.location.fid = before.location.fid) : Tended before rest idle r h s p where
  kind := ht.kind.trans hk
  fid := ht.fid.trans hf
  sound := ht.sound
  balanced := ht.balanced

/-- Only the result is another. -/
theorem Tended.result {rest : List UInt32} {idle : Nat} {before h : Handle} {s : Session} {p : Peer}
    {r : Except Error α} {r' : Except Error β} (ht : Tended before rest idle r h s p)
    (hr : unsent r' = unsent r) : Tended before rest idle r' h s p where
  kind := ht.kind
  fid := ht.fid
  sound := ht.sound
  balanced := hr ▸ ht.balanced

namespace Balanced

variable {rest : List UInt32} {idle : Nat} {h : Handle} {fid : UInt32} {s : Session} {p : Peer}

/-- A handle that is read from its own fid holds no other. -/
theorem of_own (hb : Balanced (h.fids ++ rest) idle s p) (hio : h.ioFid = some fid)
    (hown : fid = h.location.fid) : Balanced (h.location.fid :: rest) idle s p := by
  by_cases hd : h.kind = .directory
  · -- An own fid that is its clone as well is held twice.
    rw [Handle.fids_of_dir hd, hio, hown] at hb
    exact .inl (hb.exhausted fun hn => (List.nodup_cons.1 hn).1 (List.mem_cons_self ..))
  · rwa [Handle.fids_of_ne hd] at hb

/-- A handle that is read from another fid is that of a directory and holds both. -/
theorem of_clone (hb : Balanced (h.fids ++ rest) idle s p) (hs : h.Sound) (hio : h.ioFid = some fid)
    (hown : fid ≠ h.location.fid) : Balanced (fid :: h.location.fid :: rest) idle s p := by
  have hd : h.kind = .directory := Decidable.byContradiction fun hd => by
    rcases hs hd with hnone | hsome
    · rw [hio] at hnone
      cases hnone
    · rw [hio] at hsome
      exact hown (Option.some.inj hsome)
  rw [Handle.fids_of_dir hd, hio] at hb
  exact hb.perm (List.Perm.swap ..)

end Balanced

namespace Client.Always

variable {held : List UInt32} {idle : Nat} {s : Session} {p : Peer}

/-- The attributes of an entry come through a fid that is given back. -/
theorem entryInfo {h : Handle} {entry : DirEntry} (hb : Balanced held idle s p) :
    Always (Peer.Step .serving) (Handle.entryInfo h entry) s p
      (Entered (fun _ => held) held idle) := by
  refine (freshFid hb).bind_of_yields fun fid t q hq => ?_
  refine (walk _ [entry.name] hq (Nat.le_refl 1)).bind (fun _ u q hw => ?_) fun e u q hw => hw.1
  have hattr := quiet (.getattr fid .all) rfl rfl hw.1
  refine hattr.attempt.bind_of_yields fun attr u q ha => ?_
  refine (release ha.balanced).bind_of_yields fun _ v q hq => ?_
  cases attr with
  | ok attr => exact .pure hq
  | error e => exact .throw hq

end Client.Always

namespace HandleClient.Always

variable {rest : List UInt32} {idle : Nat} {h : Handle} {s : Session} {p : Peer}

/-- The fid to read from is opened, and a clone is given back if that fails. -/
theorem lopen {fid : UInt32} (hio : h.ioFid = none) (hs : { h with ioFid := some fid }.Sound)
    (hb : Balanced ({ h with ioFid := some fid }.fids ++ rest) idle s p) :
    Always (Peer.Step .serving) (h.openOn fid) h s p (Tended h rest idle) := by
  have hopen := Client.Always.quiet (.lopen fid Handle.readOnlyFlags) rfl rfl hb
  refine openOn_of_lopen hopen (fun _ _ t q hr => ⟨rfl, rfl, hs, hr.balanced⟩)
    (fun hown e t q hr => ?_) fun hown e t q hr => ?_
  · refine ⟨rfl, rfl, Handle.sound_of_none hio, ?_⟩
    rw [Handle.fids_of_none hio]
    exact Balanced.of_own (h := { h with ioFid := some fid }) hr.balanced rfl hown
  · have hboth := Balanced.of_clone (h := { h with ioFid := some fid }) hr.balanced hs rfl hown
    refine (Client.Always.release hboth).mono fun _ u q ⟨_, hr, hq⟩ => ⟨(), hr, ?_⟩
    refine ⟨rfl, rfl, Handle.sound_of_none hio, ?_⟩
    rw [Handle.fids_of_none hio]
    exact hq

/-- The fid that a directory is read from is a clone, that any other object is
read from its own. -/
theorem ensureOpen (hs : h.Sound) (hb : Balanced (h.fids ++ rest) idle s p) :
    Always (Peer.Step .serving) Handle.ensureOpen h s p (Tended h rest idle) := by
  refine ensureOpen_of_openOn (fun _ _ => ⟨rfl, rfl, hs, hb⟩) (fun hio hk => ?_) fun hio hk => ?_
  all_goals rw [Handle.fids_of_none hio] at hb
  · refine ofClient_bind_of_yields (Client.Always.freshFid hb) fun fid t q hq => ?_
    refine ofClient_bind (Client.Always.walk _ [] hq (Nat.zero_le 1)) (fun _ u q hw => ?_)
      fun e u q hw => ⟨rfl, rfl, hs, ?_⟩
    · have hsound : { h with ioFid := some fid }.Sound := fun hd => absurd hk hd
      have hfids : { h with ioFid := some fid }.fids = [h.location.fid, fid] :=
        Handle.fids_of_dir hk
      refine lopen hio hsound (hfids ▸ ?_)
      exact Balanced.perm hw.1 (List.Perm.swap ..)
    · rw [Handle.fids_of_none hio]
      exact hw.1
  · have hsound : { h with ioFid := some h.location.fid }.Sound := fun _ => .inr rfl
    have hfids : { h with ioFid := some h.location.fid }.fids = [h.location.fid] :=
      Handle.fids_of_ne hk
    exact lopen hio hsound (hfids ▸ hb)

/-- An operation of the session that leaves the fids as they are. -/
theorem quiet_bind {x : Client α} {f : α → HandleClient β} (hs : h.Sound)
    (hx : x.Always (Peer.Step .serving) s p
      (Entered (fun _ => h.fids ++ rest) (h.fids ++ rest) idle))
    (hf : ∀ a t q, Balanced (h.fids ++ rest) idle t q →
      Always (Peer.Step .serving) (f a) h t q (Tended h rest idle)) :
    Always (Peer.Step .serving) (HandleClient.ofClient x >>= f) h s p (Tended h rest idle) :=
  ofClient_bind hx hf fun _ _ _ hq => ⟨rfl, rfl, hs, hq⟩

theorem tended_bind {x : HandleClient α} {f : α → HandleClient β}
    (hx : Always (Peer.Step .serving) x h s p (Tended h rest idle))
    (hf : ∀ a g t q, g.Sound → Balanced (g.fids ++ rest) idle t q →
      Always (Peer.Step .serving) (f a) g t q (Tended g rest idle)) :
    Always (Peer.Step .serving) (x >>= f) h s p (Tended h rest idle) :=
  hx.bind (fun a g t q hg => (hf a g t q hg.sound hg.balanced).mono fun _ _ _ _ hr =>
    hr.since hg.kind hg.fid) fun _ _ _ _ he => he.result rfl

/-- The handle is changed, but not its kind or its own fid. -/
theorem tended_set {g : Handle} {f : PUnit → HandleClient α} (hk : g.kind = h.kind)
    (hf : g.location.fid = h.location.fid)
    (hx : Always (Peer.Step .serving) (f ⟨⟩) g s p (Tended g rest idle)) :
    Always (Peer.Step .serving) (set g >>= f) h s p (Tended h rest idle) :=
  set_bind (hx.mono fun _ _ _ _ hr => hr.since hk hf)

theorem tended_map {x : HandleClient α} {f : α → β}
    (hx : Always (Peer.Step .serving) x h s p (Tended h rest idle)) :
    Always (Peer.Step .serving) (f <$> x) h s p (Tended h rest idle) :=
  .map (hx.mono fun r _ _ _ hr => hr.result (unsent_map f r))

/-! ## Reading -/

theorem readFrom {fid : UInt32} {start : UInt64} {fuel wanted : Nat} {acc : Bytes} (hs : h.Sound)
    (hb : Balanced (h.fids ++ rest) idle s p) :
    Always (Peer.Step .serving) (Handle.readFrom fid start fuel wanted acc) h s p
      (Tended h rest idle) := by
  -- Each response moves the position, so that the handle varies with the fuel.
  induction fuel generalizing wanted acc h s p with
  | zero => exact pure ⟨rfl, rfl, hs, hb⟩
  | succ fuel ih =>
    cases wanted with
    | zero => exact pure ⟨rfl, rfl, hs, hb⟩
    | succ wanted =>
      let count := UInt32.ofNat (min s.readCeiling.toNat (wanted + 1))
      have hread := Client.Always.quiet (.read fid h.position count) rfl rfl hb
      refine get_bind (session_bind (ofClient_bind_of_yields hread.attempt fun r t q hr => ?_))
      cases r with
      | error e => exact set_bind (throw ⟨rfl, rfl, hs, hr.balanced⟩)
      | ok data =>
        cases data with
        | nil => exact pure ⟨rfl, rfl, hs, hr.balanced⟩
        | cons byte bytes => exact .relies (tended_set rfl rfl (ih hs hr.balanced))

theorem readData {wanted : Nat} (hs : h.Sound) (hb : Balanced (h.fids ++ rest) idle s p) :
    Always (Peer.Step .serving) (Handle.readData wanted) h s p (Tended h rest idle) := by
  refine get_bind (.refuse (fun _ => .error rfl hs hb) fun _ => ?_)
  refine tended_bind (ensureOpen hs hb) fun fid g t q hg hq => get_bind ?_
  exact readFrom hg hq

theorem nextEntry {fid : UInt32} {fuel : Nat} (hs : h.Sound)
    (hb : Balanced (h.fids ++ rest) idle s p) :
    Always (Peer.Step .serving) (Handle.nextEntry fid fuel) h s p (Tended h rest idle) := by
  induction fuel generalizing h s p with
  | zero => exact throw (.error rfl hs hb)
  | succ fuel ih =>
    refine get_bind ?_
    -- Whatever is passed over, it changes no fid.
    generalize Handle.skipDots h.position h.pending = skipped
    obtain ⟨position, pending⟩ := skipped
    refine tended_set rfl rfl ?_
    cases pending with
    | cons entry entries =>
      exact quiet_bind hs (Client.Always.entryInfo hb) fun info t q hq =>
        set_bind (pure ⟨rfl, rfl, hs, hq⟩)
    | nil =>
      show Always _ (if h.exhausted then _ else _) _ _ _ _
      by_cases he : h.exhausted = true
      · rw [if_pos he]
        exact pure ⟨rfl, rfl, hs, hb⟩
      · rw [if_neg he]
        have hlist := Client.Always.quiet (.readdir fid position s.readdirCeiling) rfl rfl hb
        refine session_bind (quiet_bind hs hlist fun entries t q hq => ?_)
        cases entries with
        | nil => exact set_bind (pure ⟨rfl, rfl, hs, hq⟩)
        | cons entry entries => exact tended_set rfl rfl (ih hs hq)

theorem readEntry (hs : h.Sound) (hb : Balanced (h.fids ++ rest) idle s p) :
    Always (Peer.Step .serving) Handle.readEntry h s p (Tended h rest idle) := by
  refine get_bind (.refuse (fun _ => .error rfl hs hb) fun _ => ?_)
  exact tended_bind (ensureOpen hs hb) fun fid g t q hg hq => nextEntry hg hq

theorem linkTarget (hs : h.Sound) (hb : Balanced (h.fids ++ rest) idle s p) :
    Always (Peer.Step .serving) Handle.linkTarget h s p (Tended h rest idle) := by
  refine get_bind (.refuse (fun _ => .error rfl hs hb) fun _ => ?_)
  cases htarget : h.target with
  | some target => exact pure ⟨rfl, rfl, hs, hb⟩
  | none =>
    have hread := Client.Always.quiet (.readlink h.location.fid) rfl rfl hb
    refine quiet_bind hs hread fun target t q hq => ?_
    exact set_bind (pure ⟨rfl, rfl, hs, hq⟩)

theorem readLink {room : Nat} (hs : h.Sound) (hb : Balanced (h.fids ++ rest) idle s p) :
    Always (Peer.Step .serving) (Handle.readLink room) h s p (Tended h rest idle) := by
  refine tended_bind (linkTarget hs hb) fun target g t q hg hq => ?_
  exact .refuse (fun _ => .error rfl hg hq) fun _ => pure ⟨rfl, rfl, hg, hq⟩

theorem read {room : Nat} (hs : h.Sound) (hb : Balanced (h.fids ++ rest) idle s p) :
    Always (Peer.Step .serving) (Handle.read room) h s p (Tended h rest idle) := by
  refine get_bind ?_
  cases hk : h.kind with
  | regular => exact tended_map (readData hs hb)
  | directory => exact tended_map (readEntry hs hb)
  | symlink => exact tended_map (readLink hs hb)

theorem getInfo (hs : h.Sound) (hb : Balanced (h.fids ++ rest) idle s p) :
    Always (Peer.Step .serving) Handle.getInfo h s p (Tended h rest idle) := by
  have hattr := Client.Always.quiet (.getattr h.location.fid .all) rfl rfl hb
  refine get_bind (quiet_bind hs hattr fun attr t q hq => ?_)
  exact set_bind (pure ⟨rfl, rfl, hs, hq⟩)

theorem setPosition {position : UInt64} (hs : h.Sound) (hb : Balanced (h.fids ++ rest) idle s p) :
    Always (Peer.Step .serving) (Handle.setPosition position) h s p (Tended h rest idle) := by
  refine get_bind ?_
  show Always _ (if h.kind = .directory then _ else _) _ _ _ _
  by_cases hd : h.kind = .directory
  · rw [if_pos hd]
    exact .refuse (fun _ => .error rfl hs hb) fun _ => pure ⟨rfl, rfl, hs, hb⟩
  · rw [if_neg hd]
    exact pure ⟨rfl, rfl, hs, hb⟩

end HandleClient.Always

namespace Client.Always

variable {held rest : List UInt32} {idle : Nat} {s : Session} {p : Peer}

/-! ## Opening and closing -/

/-- A handle that is new owns the fid that it was given. -/
theorem establish {root location : Location} {path : String}
    (hb : Balanced (location.fid :: rest) idle s p) :
    Always (Peer.Step .serving) (Handle.establish root location path) s p (Opened rest idle) := by
  let h := Handle.fresh root location path
  have hs : h.Sound := Handle.sound_of_none rfl
  have hfids : h.fids = [location.fid] := Handle.fids_of_none rfl
  have hb : Balanced (h.fids ++ rest) idle s p := hfids ▸ hb
  refine establish_of_ensureOpen
    (R := fun r g t q => Tended h rest idle r g t q ∧ g.kind = .regular)
    (fun hk => (HandleClient.Always.ensureOpen hs hb).mono fun _ _ _ _ hg => ⟨hg, hg.kind.trans hk⟩)
    (fun _ g t q hg => ⟨hg.1.balanced, fun _ hr => Except.ok.inj hr ▸ hg.1.sound⟩)
    (fun e g t q hg => ?_) fun _ => ⟨hb, fun _ hr => Except.ok.inj hr ▸ hs⟩
  have hgone := hg.1.balanced
  rw [Handle.fids_of_ne (by rw [hg.2]; decide)] at hgone
  exact (release hgone).mono fun _ u q ⟨_, hr, hq⟩ => ⟨(), hr, hq, nofun⟩

/-- A path is resolved to a fid that a new handle takes over. -/
theorem resolve_establish {root start : Location} {path name : String}
    (hb : Balanced rest idle s p) :
    Always (Peer.Step .serving) (do
      let location ← Session.resolve root start path
      Handle.establish root location name) s p (Opened rest idle) :=
  (resolve hb).bind (fun _ _ _ hq => establish hq) fun _ _ _ hq => ⟨hq, fun _ hr => by cases hr⟩

theorem openPath {h : Handle} {path : String} (hb : Balanced rest idle s p) :
    Always (Peer.Step .serving) (h.openPath path) s p (Opened rest idle) := by
  rw [Handle.openPath]
  exact .refuse (fun _ => ⟨.error hb rfl, fun _ hr => by cases hr⟩) fun _ => resolve_establish hb

/-- The figures are those of the file system that any fid lies in. -/
theorem fsInfo {fid : UInt32} (hb : Balanced held idle s p) :
    Always (Peer.Step .serving) (do
      let stat ← Session.statfs fid
      return FsInfo.ofFsStat stat) s p (Entered (fun _ => held) held idle) :=
  entered_bind (quiet (.statfs fid) rfl rfl hb) fun _ _ _ hq => .pure hq

/-- A handle that is closed holds no fid, whatever the server says to it. -/
theorem close {h : Handle} (hs : h.Sound) (hb : Balanced (h.fids ++ rest) idle s p) :
    Always (Peer.Step .serving) h.close s p (Entered (fun _ => rest) rest idle) := by
  refine close_of_clunk (R := Kept (h.location.fid :: rest) idle) (fun hown => ?_)
    (fun fid hio hne => clunk (hb.of_clone hs hio hne)) fun clone t q hq => ?_
  · have hb : Balanced (h.location.fid :: rest) idle s p := by
      cases hio : h.ioFid with
      | none => rwa [Handle.fids_of_none hio] at hb
      | some fid => exact hb.of_own hio (hown fid hio)
    exact (clunk hb).mono fun _ _ _ hown => hown.entered
  · refine (clunk hq.entered.balanced).mono fun own u q hown => ?_
    cases clone with
    | ok _ => exact hown.entered
    | error e => exact hown.balanced

end Client.Always

end NineP
