import NineP.Proofs.Strict.Handle
import NineP.Proofs.Volume.Stays
import NineP.Proofs.World.Scripted

/-!
# Volumes within bounds

A whole life with a volume on the strict machine: it is mounted, whatever may be asked
is asked of it and of its handles, it is unmounted, and the handles that are left are
asked again (`Strict.Volume.linger`).

* `Strict.Visit.perform_within`: whatever is done, the message size stays what was
  agreed, and the program is within bounds;
* `Volume.within_bounds`: whatever a server sends, and however it comes, no operation
  is ever applied outside its domain.
-/

namespace NineP

/-- Mount a volume, do something with it, unmount it, and do something with the
handles that are left. -/
def Volume.linger {m : Type → Type} [Monad m] [Machine m] [Relies m] (config : Config)
    (deeds late : List Deed) : Exchange Visit := do
  let (_, last) ← stay config [] deeds
  liftM (late.foldlM Visit.perform last)

namespace Strict

variable {σ α : Type} {step : σ → Call → Answer → σ → Prop}

/-! ## Volumes -/

namespace Volume

variable (hsized : Sized step)

include hsized

theorem attach_within (config : Config) :
    Client.Within step (NineP.Volume.attach config) fun _ => True := by
  refine .bind (Session.negotiate_within hsized _) fun _ _ => ?_
  exact .bind (Session.attach_within hsized _ _) fun _ _ => .pure trivial

/-- A session starts with a message size that is not too small, and keeps to that. -/
theorem mount_within (config : Config) :
    Exchange.Within step (NineP.Volume.mount config) fun r => minMsize ≤ r.2.msize := by
  refine .lift_bind fun _ _ => ?_
  refine .bind Exchange.perform_within fun _ _ => .bind Exchange.perform_within fun _ _ => ?_
  have hattach := attach_within hsized config { timeout := config.timeout }
    (by decide : minMsize ≤ defaultMsize)
  refine .bind (.ofDialogue hattach) fun (attached, session) ⟨hs, _⟩ => ?_
  cases attached with
  | ok root => exact .pure hs
  | error e => exact .bind (.attempt Exchange.perform_within) fun _ _ => .throw

theorem openRoot_within (v : Volume) : Client.Within step v.openRoot fun _ => True :=
  .bind (Session.resolve_within hsized _ _ _) fun _ _ => Handle.establish_within hsized _ _ _

theorem openPath_within (v : Volume) (path : String) :
    Client.Within step (v.openPath path) fun _ => True :=
  .bind (Session.resolve_within hsized _ _ _) fun _ _ => Handle.establish_within hsized _ _ _

theorem fsInfo_within (v : Volume) : Client.Within step v.fsInfo fun _ => True :=
  .bind (Session.statfs_within hsized _) fun _ _ => .pure trivial

theorem unmount_within (v : Volume) : Client.Within step v.unmount fun _ => True := by
  refine .bind (.attempt (Session.clunk_within hsized _)) fun clunked _ => ?_
  exact .bind Session.shutdown_within fun _ _ => .lift fun _ _ => trivial

end Volume

/-! ## Visits -/

namespace Visit

/-- The message size of a session stays usable. -/
def Usable (visit : Visit) : Prop := minMsize ≤ visit.session.msize

/-- What is done in a visit is within bounds, and leaves a usable session. -/
def Within (step : σ → Call → Answer → σ → Prop)
    (x : ∀ {m : Type → Type} [Monad m] [Machine m] [Relies m], m Visit) : Prop :=
  Agrees step (@x _ _ machine _) x Usable

variable {visit : Visit} {R : α → Prop}

theorem enter_agrees {x : Client Handle} {y : NineP.Client Handle} {R : Handle → Prop}
    (hv : Usable visit) (h : x.Agrees step y R) :
    Agrees step (visit.enter x) (visit.enter y) Usable := by
  refine .bind (h visit.session hv) fun (r, session) ⟨hs, _⟩ => ?_
  cases r with
  | ok h => exact .pure hs
  | error e => exact .pure hs

theorem leave_agrees {x : Client α} {y : NineP.Client α} (hv : Usable visit)
    (h : x.Agrees step y R) (handles : List Handle) :
    Agrees step (visit.leave x handles) (visit.leave y handles) Usable :=
  .bind (h visit.session hv) fun _ ⟨hs, _⟩ => .pure hs

theorem work_agrees {x : HandleClient α} {y : NineP.HandleClient α} (hv : Usable visit)
    (h : x.Agrees step y R) (place : Nat) (handle : Handle) :
    Agrees step (visit.work place handle x) (visit.work place handle y) Usable :=
  .bind (h handle visit.session hv) fun _ ⟨hs, _⟩ => .pure hs

theorem workIn_agrees {x : HandleClient α} {y : NineP.HandleClient α} (hv : Usable visit)
    (h : x.Agrees step y R) (place : Nat) :
    Agrees step (visit.workIn place x) (visit.workIn place y) Usable := by
  rw [NineP.Visit.workIn, NineP.Visit.workIn]
  cases visit.handles[place]? with
  | some handle => exact work_agrees hv h place handle
  | none => exact .pure hv

variable (hsized : Sized step)

include hsized

theorem actOn_within (hv : Usable visit) (place : Nat) (h : Handle) (action : Handle.Action) :
    Within step (visit.actOn place h action) := by
  cases action with
  | openPath path => exact enter_agrees hv (Handle.openPath_within hsized h path)
  | read room => exact work_agrees hv (Handle.read_within hsized room) place h
  | readData wanted => exact work_agrees hv (Handle.readData_within hsized wanted) place h
  | readEntry => exact work_agrees hv (Handle.readEntry_within hsized) place h
  | readLink room => exact work_agrees hv (Handle.readLink_within hsized room) place h
  | linkTarget => exact work_agrees hv (Handle.linkTarget_within hsized) place h
  | getInfo => exact work_agrees hv (Handle.getInfo_within hsized) place h
  | fsInfo => exact leave_agrees hv (Handle.fsInfo_within hsized h) visit.handles
  | setPosition position => exact work_agrees hv (Handle.setPosition_within position) place h
  | close => exact leave_agrees hv (Handle.close_within hsized h) (visit.handles.eraseIdx place)

theorem act_within (hv : Usable visit) (action : Volume.Action) : Within step (visit.act action) := by
  cases action with
  | openRoot => exact enter_agrees hv (Volume.openRoot_within hsized _)
  | openPath path => exact enter_agrees hv (Volume.openPath_within hsized _ path)
  | fsInfo => exact leave_agrees hv (Volume.fsInfo_within hsized _) visit.handles
  | use place action =>
    dsimp only [Within, NineP.Visit.act]
    cases visit.handles[place]? with
    | some h => exact actOn_within hsized hv place h action
    | none => exact .pure hv

theorem perform_within (hv : Usable visit) (deed : Volume.Deed) :
    Within step (visit.perform deed) := by
  cases deed with
  | act action => exact act_within hsized hv action
  | write place bytes =>
    exact workIn_agrees hv (HandleClient.Agrees.pure (R := fun _ => True) trivial) place
  | flush place =>
    exact workIn_agrees hv (HandleClient.Agrees.pure (R := fun _ => True) trivial) place
  | delete place =>
    exact workIn_agrees hv (HandleClient.Agrees.pure (R := fun _ => True) trivial) place

theorem performs_within (hv : Usable visit) (deeds : List Volume.Deed) :
    Within step (deeds.foldlM NineP.Visit.perform visit) := by
  induction deeds generalizing visit with
  | nil => exact .pure hv
  | cons deed deeds ih =>
    exact .bind (perform_within hsized hv deed) fun _ hv => ih hv

theorem unmount_within (hv : Usable visit) : Within step visit.unmount :=
  leave_agrees hv (Volume.unmount_within hsized _) visit.handles

end Visit

namespace Volume

/-- The life of a volume on the strict machine. -/
def linger (config : Config) (deeds late : List Volume.Deed) : Exchange Visit :=
  @NineP.Volume.linger _ _ machine _ config deeds late

variable (hsized : Sized step)

include hsized

theorem stay_within (config : Config) (before after : List Volume.Deed) :
    Exchange.Within step (NineP.Volume.stay config before after) fun r => Visit.Usable r.2 := by
  refine .bind (mount_within hsized config) fun (volume, session) hs => ?_
  have hstart : Visit.Usable { volume, session } := hs
  refine .bind (.ofDialogue (Visit.performs_within hsized hstart before)) fun early hearly => ?_
  refine .bind (.ofDialogue (Visit.performs_within hsized hearly after)) fun late hlate => ?_
  exact .bind (.ofDialogue (Visit.unmount_within hsized hlate)) fun last hlast => .pure hlast

theorem linger_within (config : Config) (deeds late : List Volume.Deed) :
    Exchange.Within step (NineP.Volume.linger config deeds late) Visit.Usable :=
  .bind (stay_within hsized config [] deeds) fun (_, _) hlast =>
    .ofDialogue (Visit.performs_within hsized hlast late)

end Volume

end Strict

namespace Volume

/-- No server can lead a client out of the domain of an operation: the runs on the
strict machine all have a result, and they are those of the program as a dialogue. -/
theorem within_bounds {σ : Type} {step : σ → Call → Answer → σ → Prop}
    (hsized : Strict.Sized step) (config : Config) (deeds late : List Deed) (p q : σ)
    (r : Option (Except Error Visit)) :
    (Strict.Volume.linger config deeds late).run.run.Runs step p r q ↔
      ∃ outcome, r = some outcome ∧ (linger config deeds late).run.Runs step p outcome q :=
  (Strict.Volume.linger_within hsized config deeds late).same p r q

/-- The answers of a server that keeps to no rule, one byte at a time: a walk of one
name that leads nowhere, more bytes than were asked for, an error report that is cut
short, and a size that is smaller than that of a header. -/
def unruly : Scripted where
  fragment := some 1
  replies := [
    { bytes := [21, 0, 0, 0, 101, 255, 255, 0, 1, 0, 0, 8, 0, 57, 80, 50, 48, 48, 48, 46, 76] },
    { bytes := [20, 0, 0, 0, 105, 1, 0, 128, 0, 0, 0, 0, 1, 0, 0, 0, 0, 0, 0, 0] },
    { bytes := [9, 0, 0, 0, 111, 1, 0, 0, 0] },
    { bytes := [22, 0, 0, 0, 111, 1, 0, 1, 0, 0, 0, 0, 0, 0, 3, 0, 0, 0, 0, 0, 0, 0] },
    { bytes := [24, 0, 0, 0, 13, 1, 0, 0, 0, 0, 0, 0, 3, 0, 0, 0, 0, 0, 0, 0, 0, 0, 0, 0] },
    { bytes := [14, 0, 0, 0, 117, 1, 0, 3, 0, 0, 0, 1, 2, 3] },
    { bytes := [7, 0, 0, 0, 7, 1, 0] },
    { bytes := [3, 0, 0, 0] }]

def unrulyConfig : Config where
  remote := .v4 (.ofOctets 127 0 0 1) 564
  msize := 256

/-- Two paths are opened, and the second one is read twice. -/
def unrulyDeeds : List Deed :=
  [.act (.openPath "f"), .act (.openPath "g"), .act (.use 0 (.read 2)), .act (.use 0 (.read 2))]

/-- Nothing of that takes a strict client out of bounds: it finds fault with all of it,
and with a read after the volume was unmounted. -/
theorem within_bounds_unruly : Strict.Sized Scripted.Step ∧ ∃ visit p,
    (Strict.Volume.linger unrulyConfig unrulyDeeds [.act (.use 0 (.read 2))]).run.run.Runs
        Scripted.Step unruly (some (.ok visit)) p ∧
      visit.results = [.error (.transport .notConnected), .error (.decode (.responseTooShort 3)),
        .error (.bufferTooSmall 11 7), .error (.decode (.surplusBytes 3 2)), .ok (),
        .error (.server .notFound)] := by
  have hsized : Strict.Sized Scripted.Step := fun _ _ _ _ h => Scripted.Step.sized h
  let d := (linger unrulyConfig unrulyDeeds [.act (.use 0 (.read 2))]).run
  have hresults : (Scripted.after d unruly).1.toOption.map Visit.results =
      some [.error (.transport .notConnected), .error (.decode (.responseTooShort 3)),
        .error (.bufferTooSmall 11 7), .error (.decode (.surplusBytes 3 2)), .ok (),
        .error (.server .notFound)] := by decide +kernel
  have hrun := Scripted.runs d unruly
  cases hr : (Scripted.after d unruly).1 with
  | error e =>
    rw [hr] at hresults
    cases hresults
  | ok visit =>
    rw [hr] at hresults hrun
    exact ⟨hsized, visit, _, (within_bounds hsized _ _ _ _ _ _).2 ⟨_, rfl, hrun⟩,
      Option.some.inj hresults⟩

end Volume

end NineP
