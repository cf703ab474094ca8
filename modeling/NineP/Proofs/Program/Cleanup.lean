import NineP.Proofs.Program.Stages
import NineP.Proofs.Volume.Mounting
import NineP.Proofs.Volume.Stays
import NineP.Proofs.World.Tapped

/-!
# What a program leaves behind

Whatever a server grants and refuses, the fids of a program are watched, by the books and
by the discipline that it keeps to, until it closes its connection:

* `Program.cared_work`: the fids of a handle stay watched while a command does its work;
* `Program.always_closed`: they are given back once it has done so;
* `Program.always_course`: so that those which are left are those of a handle whose
  command has failed;
* `Program.gives_back`: all other fids are given back, each of them once.
-/

namespace NineP

open Tapped (Step)

/-- The books are right for these fids, and a client that keeps to the discipline of fids
has them in custody. -/
def Watched (held opened shut : List UInt32) (idle : Nat) (s : Session) (w : Tapped) : Prop :=
  Balanced held idle s w.1 ∧ Custody held opened shut idle s w.2

/-- The fids of a handle are watched beside those of others. -/
structure Attended (rest opened shut : List UInt32) (idle : Nat) (h : Handle) (s : Session)
    (w : Tapped) : Prop where
  settled : h.Settled
  balanced : Balanced (h.fids ++ rest) idle s w.1
  custody : Custody (h.fids ++ rest) (h.ioFid.toList ++ opened) shut idle s w.2

/-- The handle after an operation: it is still the handle `before`, and its fids are
watched beside those of others. -/
def Cared (before : Handle) (rest opened shut : List UInt32) (idle : Nat) (r : Except Error α)
    (h : Handle) (s : Session) (w : Tapped) : Prop :=
  Tended before rest idle r h s w.1 ∧ Minded before rest opened shut idle r h s w.2

namespace Cared

variable {rest opened shut : List UInt32} {idle : Nat} {before g h : Handle} {s : Session}
  {w : Tapped} {r : Except Error α}

theorem since (hc : Cared g rest opened shut idle r h s w) (hroot : g.root = before.root)
    (hkind : g.kind = before.kind) (hfid : g.location.fid = before.location.fid) :
    Cared before rest opened shut idle r h s w :=
  ⟨hc.1.since hkind hfid, hc.2.since hroot hkind hfid⟩

theorem result {r' : Except Error β} (hc : Cared before rest opened shut idle r h s w)
    (hr : unsent r' = unsent r) : Cared before rest opened shut idle r' h s w :=
  ⟨hc.1.result hr, hc.2.result hr⟩

theorem attended (hc : Cared before rest opened shut idle r h s w) :
    Attended rest opened shut (idle + unsent r) h s w :=
  ⟨hc.2.settled, hc.1.balanced, hc.2.custody⟩

end Cared

theorem Attended.cared {rest opened shut : List UInt32} {idle : Nat} {h : Handle} {s : Session}
    {w : Tapped} {r : Except Error α} (hh : Attended rest opened shut idle h s w)
    (hr : unsent r = 0) : Cared h rest opened shut idle r h s w :=
  ⟨⟨rfl, rfl, hh.settled.sound, by rw [hr]; exact hh.balanced⟩,
    ⟨rfl, rfl, rfl, hh.settled, by rw [hr]; exact hh.custody⟩⟩

namespace HandleClient.Always

variable {α β : Type} {x : HandleClient α} {f : α → HandleClient β} {h : Handle}
  {rest opened shut : List UInt32} {idle : Nat} {s : Session} {w : Tapped}

theorem cared_bind (hx : Always (Step .serving) x h s w (Cared h rest opened shut idle))
    (hf : ∀ a g t w', Attended rest opened shut idle g t w' →
      Always (Step .serving) (f a) g t w' (Cared g rest opened shut idle)) :
    Always (Step .serving) (x >>= f) h s w (Cared h rest opened shut idle) :=
  hx.bind
    (fun a g t w' hg => (hf a g t w' hg.attended).mono fun _ _ _ _ hr =>
      hr.since hg.2.root hg.2.kind hg.2.fid)
    fun _ _ _ _ he => he.result rfl

end HandleClient.Always

namespace Program

open HandleClient

variable {α : Type} {h : Handle} {rest opened shut : List UInt32} {idle : Nat} {s : Session}
  {w : Tapped}

/-- What is printed is no concern of the server's. -/
theorem always_print {bytes : Bytes} :
    (print bytes).Always (Step .serving) s w (Client.Yields fun _ t w' => t = s ∧ w' = w) :=
  .ofExchange (.perform fun answer w' h => by
    obtain ⟨rfl, rfl⟩ := h.eq_of_still rfl
    exact ⟨(), rfl, rfl, rfl⟩)

theorem cared_entries {fuel : Nat} {acc : List FileInfo}
    (hh : Attended rest opened shut idle h s w) :
    Always (Step .serving) (entries fuel acc) h s w (Cared h rest opened shut idle) := by
  induction fuel generalizing acc h s w with
  | zero => exact .throw (hh.cared rfl)
  | succ fuel ih =>
    have hread : Always (Step .serving) Handle.readEntry h s w (Cared h rest opened shut idle) :=
      Tapped.always (Always.readEntry hh.settled.sound hh.balanced)
        (Custody.readEntry hh.settled hh.custody)
    refine hread.cared_bind fun found g t w' hg => ?_
    cases found with
    | none => exact .pure (hg.cared rfl)
    | some info => exact ih hg

theorem cared_contents {fuel : Nat} (hh : Attended rest opened shut idle h s w) :
    Always (Step .serving) (contents fuel) h s w (Cared h rest opened shut idle) := by
  induction fuel generalizing h s w with
  | zero => exact .throw (hh.cared rfl)
  | succ fuel ih =>
    have hread : Always (Step .serving) (Handle.readData chunkSize) h s w
        (Cared h rest opened shut idle) :=
      Tapped.always (Always.readData hh.settled.sound hh.balanced)
        (Custody.readData hh.settled hh.custody)
    refine hread.cared_bind fun bytes g t w' hg => ?_
    cases bytes with
    | nil => exact .pure (hg.cared rfl)
    | cons byte bytes =>
      refine .ofClient_bind_of_yields always_print fun _ u w'' ⟨hu, hw⟩ => ?_
      subst hu hw
      exact ih hg

/-- Whatever a command does with its handle, and whatever comes of it, its fids stay
watched. -/
theorem cared_work {command : Command} {path : String} {x : HandleClient (List String)}
    (hw : work command = some (path, x)) (hh : Attended rest opened shut idle h s w) :
    Always (Step .serving) x h s w (Cared h rest opened shut idle) := by
  cases command with
  | list path' long =>
    cases hw
    exact (cared_entries hh).cared_bind fun found g t w' hg => .pure (hg.cared rfl)
  | cat path' =>
    cases hw
    exact (cared_contents hh).cared_bind fun _ g t w' hg => .pure (hg.cared rfl)
  | stat path' =>
    cases hw
    have hinfo : Always (Step .serving) Handle.getInfo h s w (Cared h rest opened shut idle) :=
      Tapped.always (Always.getInfo hh.settled.sound hh.balanced)
        (Custody.getInfo hh.settled hh.custody)
    exact hinfo.cared_bind fun info g t w' hg => .get_bind (.pure (hg.cared rfl))
  | statfs => cases hw
  | readlink path' =>
    cases hw
    have hlink : Always (Step .serving) Handle.linkTarget h s w (Cared h rest opened shut idle) :=
      Tapped.always (Always.linkTarget hh.settled.sound hh.balanced)
        (Custody.linkTarget hh.settled hh.custody)
    exact hlink.cared_bind fun target g t w' hg => .pure (hg.cared rfl)

/-! ## From opening to closing -/

/-- The fids of a handle that is left open. -/
def leftFids : Option Handle → List UInt32
  | some h => h.fids
  | none => []

/-- After a result or a failure these fids are watched. -/
def Holds (held opened shut : List UInt32) (r : Except Error α) (s : Session) (w : Tapped) : Prop :=
  Watched held opened shut (unsent r) s w

theorem always_printText {text : String} (hw : Watched rest opened shut 0 s w) :
    (printText text).Always (Step .serving) s w (Holds rest opened shut) :=
  always_print.mono fun r t w' ⟨_, hr, ht, hw'⟩ => by
    subst hr ht hw'
    exact hw

theorem always_printTexts {texts : List String} (hw : Watched rest opened shut 0 s w) :
    (texts.forM printText : Client PUnit).Always (Step .serving) s w (Holds rest opened shut) := by
  induction texts generalizing s w with
  | nil => exact .pure hw
  | cons text texts ih =>
    exact (always_printText hw).bind (fun _ _ _ hw => ih hw) fun _ _ _ hw => hw

theorem always_closed {texts : List String} (hh : Attended rest opened shut 0 h s w) :
    (do h.close; texts.forM printText : Client Unit).Always (Step .serving) s w
      (Holds rest (h.ioFid.toList ++ opened) shut) := by
  have hclose : h.close.Always (Step .serving) s w fun r t w' =>
      Entered (fun _ => rest) rest 0 r t w'.1 ∧
        Gained (fun _ => Custody rest (h.ioFid.toList ++ opened) shut 0) rest
          (h.ioFid.toList ++ opened) shut 0 r t w'.2 :=
    Tapped.always (Client.Always.close hh.settled.sound hh.balanced)
      (Custody.close hh.settled hh.custody)
  refine hclose.bind (fun _ t w' ⟨hb, hc⟩ => always_printTexts ⟨hb, hc⟩) fun e t w' ⟨hb, hc⟩ => ?_
  rw [Holds, ← Nat.zero_add (unsent _)]
  exact ⟨hb, hc⟩

theorem always_statfs {volume : Volume} (hw : Watched [volume.root.fid] opened shut 0 s w) :
    (carryOut volume .statfs).Always (Step .serving) s w
      (Holds [volume.root.fid] opened shut) := by
  have hinfo : volume.fsInfo.Always (Step .serving) s w fun r t w' =>
      Entered (fun _ => [volume.root.fid]) [volume.root.fid] 0 r t w'.1 ∧
        Gained (fun _ => Custody [volume.root.fid] opened shut 0) [volume.root.fid] opened shut 0
          r t w'.2 :=
    Tapped.always (Client.Always.fsInfo hw.1) (Custody.fsInfo hw.2 (List.mem_cons_self ..))
  refine hinfo.bind (fun info t w' ⟨hb, hc⟩ => ?_) fun e t w' ⟨hb, hc⟩ => ?_
  · exact always_printText ⟨hb, hc⟩
  · rw [Holds, ← Nat.zero_add (unsent _)]
    exact ⟨hb, hc⟩

theorem unsent_le_one (r : Except Error α) : unsent r ≤ 1 := by
  cases r with
  | ok a => exact Nat.zero_le 1
  | error e =>
    rw [unsent]
    split <;> decide

/-- What comes of a command: the fids that are held are the root's and those of a handle
that is left open. -/
theorem always_conduct {volume : Volume} {command : Command}
    (hw : Watched [volume.root.fid] [] [volume.root.fid] 0 s w) :
    Dialogue.Always (Step .serving) ((conduct volume command).run s) w fun r w' =>
      ∃ opened shut idle, idle ≤ 1 ∧
        Watched (leftFids r.1.2 ++ [volume.root.fid]) opened shut idle r.2 w' := by
  rw [conduct]
  cases hc : work command with
  | none =>
    obtain rfl : command = .statfs := by
      cases command with
      | statfs => rfl
      | _ => cases hc
    refine Dialogue.Always.bind (always_statfs hw) fun rt w' hw => .done ?_
    exact ⟨_, _, _, unsent_le_one rt.1, hw⟩
  | some opened =>
    obtain ⟨path, x⟩ := opened
    have hopen : (volume.openPath path).Always (Step .serving) s w fun r t w' =>
        Opened [volume.root.fid] 0 r t w'.1 ∧
          Gained (Admitted volume.root [volume.root.fid] [] [volume.root.fid] 0)
            [volume.root.fid] [] [volume.root.fid] 0 r t w'.2 :=
      Tapped.always (Client.Always.resolve_establish hw.1)
        (Custody.resolve_establish hw.2 (List.mem_cons_self ..) (List.mem_cons_self ..))
    refine Dialogue.Always.bind hopen fun rt w' hopened => ?_
    obtain ⟨r, t⟩ := rt
    obtain ⟨⟨hb, hsound⟩, hcust⟩ := hopened
    cases r with
    | error e =>
      have hw : Holds [volume.root.fid] [] [volume.root.fid] (.error e : Except Error Handle)
          t w' := by
        rw [Holds, ← Nat.zero_add (unsent _)]
        exact ⟨hb, hcust⟩
      exact .done ⟨_, _, _, unsent_le_one (.error e : Except Error Handle), hw⟩
    | ok h =>
      have hcust : Admitted volume.root [volume.root.fid] [] [volume.root.fid] 0 h t w'.2 := hcust
      have hh : Attended [volume.root.fid] [] (h.shut ++ [volume.root.fid]) 0 h t w' :=
        ⟨hcust.settled, hb, hcust.custody⟩
      refine Dialogue.Always.bind (cared_work hc hh) fun rgu w'' hg => ?_
      obtain ⟨⟨r, g⟩, u⟩ := rgu
      have hg := hg.attended
      rw [Nat.zero_add] at hg
      cases r with
      | error e =>
        exact .done ⟨_, _, _, unsent_le_one (.error e : Except Error (List String)),
          hg.balanced, hg.custody⟩
      | ok texts =>
        refine Dialogue.Always.bind (always_closed hg) fun rv w'' hw => .done ?_
        exact ⟨_, _, _, unsent_le_one rv.1, hw⟩

/-- The fids that a program leaves for the server to forget. -/
def Ending.left : Ending → List UInt32
  | .finished _ h _ => leftFids h
  | _ => []

/-- Unless the fids have run out, these are the ones that are live, and the client has kept
to the discipline of fids. -/
def Left (fids : List UInt32) (w : Tapped) : Prop :=
  (fidSupply ≤ Peer.namings w.1.log + 1 ∨ ∀ fid, fid ∈ Peer.live w.1.log ↔ fid ∈ fids) ∧
    (fidSupply ≤ w.2.transcript.named.length + 1 ∨ w.2.Disciplined)

theorem Watched.left {held opened shut : List UInt32} (hw : Watched held opened shut idle s w)
    (hi : idle ≤ 1) : Left held w := by
  obtain ⟨hb, hc⟩ := hw
  refine ⟨?_, ?_⟩
  · rcases hb with hb | hb
    · exact .inl (Nat.le_trans hb (Nat.add_le_add_left hi _))
    · exact .inr hb.live
  · rcases hc with hc | hc
    · exact .inl (Nat.le_trans hc (Nat.add_le_add_left hi _))
    · exact .inr hc.1.disciplined

/-- The root's fid is given back at the end, whatever has come of the command. -/
theorem always_errand {volume : Volume} {command : Command}
    (hw : Watched [volume.root.fid] [] [volume.root.fid] 0 s w) :
    Dialogue.Always (Step .serving) (errand volume command s) w fun ending w' =>
      Left ending.left w' := by
  refine Dialogue.Always.bind (always_conduct hw) fun ((result, left), t) w' hw => ?_
  obtain ⟨opened, shut, idle, hi, hb, hc⟩ := hw
  have hperm : (leftFids left ++ [volume.root.fid]).Perm (volume.root.fid :: leftFids left) :=
    List.perm_append_comm
  have hclunk : (Session.clunk volume.root.fid).Always (Step .serving) t w' fun r u w'' =>
      Kept (leftFids left) idle r u w''.1 ∧ Retained (leftFids left) opened shut idle r u w''.2 :=
    Tapped.always (Client.Always.clunk (hb.perm hperm)) (Custody.clunk (hc.perm hperm))
  refine Dialogue.Always.bind hclunk fun (clunked, u) w'' ⟨hb, hc⟩ => .done ?_
  exact Watched.left ⟨hb.balanced, hc.custody⟩ hi

theorem always_connect {config : Config} :
    (connect config).Always (Step .serving) w fun _ w' => w' = w := by
  have still {c : Call} {w : Tapped} (hc : c.isStill = true) :
      (Exchange.perform c).Always (Step .serving) w fun _ w' => w' = w :=
    .perform fun answer w' h => (h.eq_of_still hc).2
  rw [connect]
  cases config.validate with
  | error e => exact .lift_bind_error rfl rfl
  | ok u =>
    refine .lift_bind_ok rfl ((still rfl).bind (fun _ w' hw => ?_) fun _ w' hw => hw)
    subst hw
    exact still rfl

/-- A program leaves no fids but those of a handle that it has left open. -/
theorem always_course {config : Config} {command : Command} :
    Dialogue.Always (Step .serving) (course config command) ({}, []) fun ending w =>
      Left ending.left w := by
  have silent : Left [] ({}, []) :=
    ⟨.inr fun _ => Iff.rfl, .inr ⟨fun _ h => absurd h List.not_mem_nil, trivial⟩⟩
  refine Dialogue.Always.bind always_connect fun r w hw => ?_
  subst hw
  cases r with
  | error e => exact .done silent
  | ok _ =>
    have hserved : (Volume.attach config).Always (Peer.Step .serving) { timeout := config.timeout }
        {} _ := Client.Always.attachVolume
    have hheard : (Volume.attach config).Always Wire.Step { timeout := config.timeout } [] _ :=
      Custody.attachVolume config
    refine Dialogue.Always.bind (Tapped.always (w := ({}, [])) hserved hheard)
      fun (r, s) w ⟨hb, hc⟩ => ?_
    cases r with
    | error e =>
      have hone := unsent_le_one (.error e : Except Error Location)
      refine .done ⟨?_, ?_⟩
      · rcases hb with hb | hb
        · exact .inl (Nat.le_trans hb (Nat.add_le_add_left hone _))
        · exact .inr fun fid => by rw [hb]; rfl
      · rcases hc with hc | hc
        · exact .inl (Nat.le_trans hc (Nat.add_le_add_left hone _))
        · exact .inr hc
    | ok root => exact always_errand ⟨hb, hc⟩

/-- To close the connection is no request. -/
theorem always_finish {ending : Ending} {p : Peer} :
    ending.finish.Always (Peer.Step .serving) p fun _ q => q = p := by
  have hclose : (Exchange.perform .close).run.Always (Peer.Step .serving) p fun _ q => q = p :=
    Dialogue.Always.mono (Exchange.Always.still (by intro _ _ h; cases h; exact ⟨rfl, rfl⟩))
      fun _ _ h => h.2
  cases ending with
  | unconnected e => exact .throw rfl
  | unattached e => exact .dialogue_bind hclose fun _ q hq => .throw hq
  | finished result left clunked =>
    refine .dialogue_bind hclose fun closed q hq => ?_
    cases result with
    | error e => exact .throw hq
    | ok _ =>
      cases closed with
      | error e => exact .throw hq
      | ok _ => exact Dialogue.Always.done hq

/-- A command leaves a handle open only if it fails. -/
theorem failed_of_left {σ : Type} {step : σ → Call → Answer → σ → Prop} {p : σ} {volume : Volume}
    {command : Command} :
    Dialogue.Always step ((conduct volume command).run s) p fun r _ =>
      ∀ h, r.1.2 = some h → ∃ e, r.1.1 = .error e := by
  have any {β : Type} {d : Dialogue β} {q : σ} : d.Always step q fun _ _ => True :=
    fun _ _ _ => trivial
  rw [conduct]
  cases work command with
  | none => exact any.bind fun _ _ _ => .done fun _ h => by cases h
  | some opened =>
    refine any.bind fun rt _ _ => ?_
    obtain ⟨r, t⟩ := rt
    cases r with
    | error e => exact .done fun _ h => by cases h
    | ok h =>
      refine any.bind fun rgu _ _ => ?_
      obtain ⟨⟨r, g⟩, u⟩ := rgu
      cases r with
      | error e => exact .done fun _ _ => ⟨e, rfl⟩
      | ok texts => exact any.bind fun _ _ _ => .done fun _ h => by cases h

theorem left_eq_nil {σ : Type} {step : σ → Call → Answer → σ → Prop} {p : σ} {config : Config}
    {command : Command} :
    Dialogue.Always step (course config command) p fun ending q =>
      ending.finish.Always step q fun r _ => r = .ok () → ending.left = [] := by
  have any {β : Type} {d : Dialogue β} {q : σ} : d.Always step q fun _ _ => True :=
    fun _ _ _ => trivial
  refine any.bind fun r _ _ => ?_
  cases r with
  | error e => exact .done fun _ _ _ _ => rfl
  | ok _ =>
    refine any.bind fun (r, s) _ _ => ?_
    cases r with
    | error e => exact .done fun _ _ _ _ => rfl
    | ok root =>
      refine Dialogue.Always.bind failed_of_left fun ((result, left), t) _ hleft => ?_
      refine any.bind fun (clunked, u) _ _ => .done ?_
      cases left with
      | none => exact fun _ _ _ _ => rfl
      | some h =>
        obtain ⟨e, he⟩ := hleft h rfl
        obtain rfl : result = .error e := he
        have hclose {q : σ} : (Exchange.perform .close).run.Always step q fun _ _ => True := any
        refine .dialogue_bind hclose fun _ _ _ => .throw ?_
        intro hok
        cases hok

/-- A program gives back each fid that it was granted, once and before it closes its
connection, but for those of the handle of a command that failed while it was open: these it
never gives back. -/
theorem gives_back {config : Config} {command : Command} {r : Except Error Unit} {p : Peer}
    (hrun : (session config command).run.Runs (Peer.Step .serving) {} r p)
    (hfew : Peer.namings p.log < 2 ^ 32 - 3) :
    ∃ ending, (course config command).Runs (Peer.Step .serving) {} ending p ∧
      ending.finish.run.Runs (Peer.Step .serving) p r p ∧
      (r = .ok () → ending.left = []) ∧ ending.left ⊆ Peer.granted p.log ∧
      ∀ fid ∈ Peer.granted p.log,
        (Peer.clunked p.log).count fid = if fid ∈ ending.left then 0 else 1 := by
  rw [session_eq, Dialogue.runs_bind] at hrun
  obtain ⟨ending, q, hcourse, hfinish⟩ := hrun
  obtain rfl : p = q := always_finish r p hfinish
  refine ⟨ending, hcourse, hfinish, left_eq_nil ending p hcourse r p hfinish, ?_⟩
  obtain ⟨log, htapped⟩ := Tapped.runs_of_runs hcourse []
  obtain ⟨hlive, hdisc⟩ := always_course ending (p, log) htapped
  have haligned := Wire.map_transcript_congr (Tapped.aligned_of_runs htapped rfl)
  have hnamings : (Wire.transcript log).named.length = Peer.namings p.log := by
    rw [Peer.namings_eq, ← Transcript.named_congr haligned]
  have hsupply : ¬ fidSupply ≤ Peer.namings p.log + 1 := by
    rw [fidSupply]
    omega
  have hlive := hlive.resolve_left hsupply
  have hdisc := hdisc.resolve_left (hnamings ▸ hsupply)
  have horderly := hdisc.2.orderly.congr haligned.symm
  have hanswered := Tapped.answered_of_runs htapped fun _ h => absurd h List.not_mem_nil
  refine ⟨fun fid hf => ?_, fun fid hf => ?_⟩
  · exact ((Peer.mem_live_iff hanswered horderly).1 ((hlive fid).2 hf)).1
  · rw [Peer.count_clunked hanswered horderly hf]
    exact if_congr (hlive fid) rfl rfl

/-! ## A file whose attributes cannot be fetched -/

open Volume (frameOf empty emptyLog emptySession)

/-- What is said when the root's attributes cannot be fetched, the last first. -/
def strayLog : List (Bytes × Bytes) :=
  [(frameOf ⟨1, .tclunk 1⟩, frameOf ⟨1, .rclunk⟩),
    (frameOf ⟨1, .tgetattr 2 .all⟩, frameOf ⟨1, .rlerror 5⟩)] ++ emptyLog.drop 4

theorem runs_stat : (session empty.config (.stat "/")).run.Runs (Peer.Step .serving) {}
    (.error (.server .io)) { log := strayLog } := by
  have walk := Volume.serving_frameOf (emptyLog.drop 5) ⟨1, .twalk 1 2 []⟩ ⟨1, .rwalk []⟩
    rfl rfl rfl rfl (.inl rfl) (by decide)
  have getattr := Volume.serving_frameOf (emptyLog.drop 4) ⟨1, .tgetattr 2 .all⟩ ⟨1, .rlerror 5⟩
    rfl rfl rfl rfl (.inr rfl) (by decide)
  have clunk := Volume.serving_frameOf (strayLog.drop 1) ⟨1, .tclunk 1⟩ ⟨1, .rclunk⟩
    rfl rfl rfl rfl (.inl rfl) (by decide)
  refine Dialogue.runs_bind.2 ⟨_, _, Volume.runs_mount, ?_⟩
  refine .ask (.transmit walk) ?_
  refine .ask (.receive 4 ?_ ?_ ?_) (.ask (.receive 5 ?_ ?_ ?_) (.ask (.transmit getattr) ?_))
  iterate 6 decide
  refine .ask (.receive 4 ?_ ?_ ?_) (.ask (.receive 7 ?_ ?_ ?_) (.ask (.transmit clunk) ?_))
  iterate 6 decide
  refine .ask (.receive 4 ?_ ?_ ?_) (.ask (.receive 3 ?_ ?_ ?_) (.ask .close (.done _ _)))
  all_goals decide

/-- The root's fid is given back, and that of the handle is left. -/
theorem gives_back_root_only : ∃ ending,
    (course empty.config (.stat "/")).Runs (Peer.Step .serving) {} ending { log := strayLog } ∧
      1 ∉ ending.left ∧ 2 ∈ ending.left := by
  have hfew : Peer.namings strayLog < 2 ^ 32 - 3 := by decide
  obtain ⟨ending, hcourse, -, -, -, hcount⟩ := gives_back runs_stat hfew
  refine ⟨ending, hcourse, fun hone => ?_, Decidable.byContradiction fun htwo => ?_⟩
  · have hroot := hcount 1 (by decide)
    rw [if_pos hone] at hroot
    exact absurd hroot (by decide)
  · have hhandle := hcount 2 (by decide)
    rw [if_neg htwo] at hhandle
    exact absurd hhandle (by decide)

/-- Not every fid that is granted is given back. -/
theorem not_gives_back_all : ¬ ∀ (config : Config) (command : Command) (r : Except Error Unit)
    (p : Peer), (session config command).run.Runs (Peer.Step .serving) {} r p →
    ∀ fid ∈ Peer.granted p.log, (Peer.clunked p.log).count fid = 1 :=
  fun h => absurd (h _ _ _ _ runs_stat 2 (by decide)) (by decide)

end Program

end NineP
