import NineP.Proofs.Handle.Identity
import NineP.Proofs.Path.LastName
import NineP.Proofs.Volume.Visits
import NineP.Proofs.World.Scripted

/-!
# The names that files are shown by

A handle shows its object by the last part of the path that it was opened by, whatever
has been done with it since. That is the last name that was walked, unless the path
ends in the name of the directory itself, which is dropped from what is walked but not
from what is shown:

* `Client.Always.openPath_path`: the path of a handle is that which was opened;
* `Handle.always_name`: what a handle shows;
* `Volume.shown_name`: how it is related to the names that were walked.
-/

namespace NineP

namespace Client.Always

variable {σ : Type} {step : σ → Call → Answer → σ → Prop} {s : Session} {p : σ}

/-- A path is opened only if it can be planned, and its handle keeps it. -/
theorem openPath_path (v : Volume) (path : String) :
    Always step (v.openPath path) s p fun r _ _ => ∀ h, r = .ok h →
      h.path = Path.absolute path ∧ ∃ plan, Path.plan path true = .ok plan := by
  rw [Volume.openPath, Session.resolve, beq_self_eq_true, Bool.true_or]
  cases hplan : Path.plan path true with
  | error e => exact lift_bind_error rfl fun h hh => by cases hh
  | ok plan =>
    rw [bind_assoc]
    refine lift_bind_ok rfl (bind (R := fun _ _ _ => True) (fun _ _ _ => trivial)
      (fun location t q _ => ?_) fun e t q _ h hh => by cases hh)
    refine Handle.identity_establish.mono fun r t q hr h hh => ⟨?_, plan, rfl⟩
    exact congrArg Handle.Identity.path (hr h hh)

end Client.Always

/-- A handle shows the last part of its path. -/
theorem Handle.always_name {σ : Type} {step : σ → Call → Answer → σ → Prop} {h : Handle}
    {s : Session} {p : σ} :
    getInfo.Always step h s p fun r _ _ _ =>
      ∀ info, r = .ok info → info.name = Path.fileName h.path := by
  refine .get_bind (.ofClient_bind (R := fun _ _ _ => True) (fun _ _ _ => trivial)
    (fun attr t q _ => ?_) fun e t q _ info hi => by cases hi)
  exact .set_bind (.pure fun info hi => Except.ok.inj hi ▸ rfl)

/-- No name of a path stands for the directory itself. -/
theorem Path.ne_of_getLast?_components {path : String} :
    (components path).getLast?.getD "" ≠ "." := by
  cases hlast : (components path).getLast? with
  | none => decide
  | some name => exact (isComponent_of_mem (List.mem_of_getLast? hlast)).2.1

namespace Volume

/-- Whatever has been done with a handle since it was opened by a path of the volume, it
shows the last name of the path's plan, or no name if there is none, exactly if the path
does not end in the name of the directory itself. If it does, then it is that name which
is shown. -/
theorem shown_name {σ : Type} {step : σ → Call → Answer → σ → Prop} {v : Volume} {path : String}
    {h g g' : Handle} {s t s' t' : Session} {p q p' q' : σ} {info : FileInfo}
    (hopened : ((v.openPath path).runIn s).Runs step p (.ok h, t) q) (hused : h.Used step g)
    (hinfo : Handle.getInfo.Runs step g s' p' (.ok info) g' t' q') :
    ∃ plan, Path.plan path true = .ok plan ∧
      (info.name = plan.names.getLast?.getD "" ↔ ¬ Path.EndsInDot path) ∧
      (Path.EndsInDot path → info.name = ".") := by
  obtain ⟨hpath, plan, hplan⟩ := Client.Always.openPath_path v path (.ok h, t) q hopened h rfl
  have hname : info.name = Path.fileName (Path.absolute path) := by
    have hkept : g.path = h.path := congrArg Handle.Identity.path hused.identity
    rw [Handle.always_name.of_runs hinfo info rfl, hkept, hpath]
  have hdot (hd : Path.EndsInDot path) : info.name = "." := by
    rw [hname, Path.fileName_of_endsInDot (Path.endsInDot_absolute.2 hd)]
  refine ⟨plan, hplan, ⟨fun h hd => ?_, fun hd => ?_⟩, hdot⟩
  · rw [hdot hd, (Path.plan_names hplan).1] at h
    exact Path.ne_of_getLast?_components h.symm
  · have habsolute : ¬ Path.EndsInDot (Path.absolute path) := fun h =>
      hd (Path.endsInDot_absolute.1 h)
    rw [hname, Path.fileName_of_not_endsInDot habsolute, Path.components_absolute,
      (Path.plan_names hplan).1]

/-! ## A name with separators around it, and the root by the name of the directory itself -/

/-- A server that grants a walk through these names, which leads to an empty directory,
and tells its attributes. -/
def titled (names : List String) : Scripted where
  replies := [{ bytes := frameOf ⟨1, .rwalk (names.map fun _ => emptyDirectory)⟩ },
    { bytes := frameOf ⟨1, .rgetattr {}⟩ }]

/-- The handle that is then opened by a path. -/
def titledHandle (path : String) : Handle :=
  .fresh empty.root { fid := 2, qid := emptyDirectory } (Path.absolute path)

/-- The server once a path has been opened. -/
def titledServer (path : String) (names : List String) : Scripted :=
  (Scripted.after ((empty.openPath path).runIn (emptySession 2)) (titled names)).2

/-- What is computed for such a server are runs. -/
theorem runs_titled (path name : String) (names : List String)
    (hopened : (Scripted.after ((empty.openPath path).runIn (emptySession 2)) (titled names)).1 =
      (.ok (titledHandle path), emptySession 3))
    (hinfo : (Scripted.after ((Handle.getInfo.run.run (titledHandle path)).run (emptySession 3))
      (titledServer path names)).1 =
        ((.ok (.ofAttr name {}), { titledHandle path with attr := some {} }), emptySession 3)) :
    ((empty.openPath path).runIn (emptySession 2)).Runs Scripted.Step (titled names)
        (.ok (titledHandle path), emptySession 3) (titledServer path names) ∧
      ∃ g t q, Handle.getInfo.Runs Scripted.Step (titledHandle path) (emptySession 3)
        (titledServer path names) (.ok (.ofAttr name {})) g t q := by
  have hopen := Scripted.runs ((empty.openPath path).runIn (emptySession 2)) (titled names)
  have hget := Scripted.runs ((Handle.getInfo.run.run (titledHandle path)).run (emptySession 3))
    (titledServer path names)
  rw [hopened] at hopen
  rw [hinfo] at hget
  exact ⟨hopen, _, _, _, hget⟩

/-- The name is shown without the separators, also after the handle was moved to the
start of the directory. -/
theorem shown_name_of_separated :
    ∃ g t q info, ((empty.openPath "/.//b\\/").runIn (emptySession 2)).Runs Scripted.Step
        (titled ["b"]) (.ok (titledHandle "/.//b\\/"), emptySession 3)
        (titledServer "/.//b\\/" ["b"]) ∧
      (titledHandle "/.//b\\/").Used Scripted.Step (titledHandle "/.//b\\/") ∧
      Handle.getInfo.Runs Scripted.Step (titledHandle "/.//b\\/") (emptySession 3)
        (titledServer "/.//b\\/" ["b"]) (.ok info) g t q ∧
      ∃ plan, Path.plan "/.//b\\/" true = .ok plan ∧ plan.names = ["b"] ∧ info.name = "b" := by
  have hruns := runs_titled "/.//b\\/" "b" ["b"]
    (by decide +kernel) (by decide +kernel)
  obtain ⟨hopened, g, t, q, hinfo⟩ := hruns
  have hmoved : (Handle.setPosition 0).Runs Scripted.Step (titledHandle "/.//b\\/")
      (emptySession 3) {} (.ok ()) (titledHandle "/.//b\\/") (emptySession 3) {} :=
    .done _ _
  have hused : (titledHandle "/.//b\\/").Used Scripted.Step (titledHandle "/.//b\\/") :=
    .operated .new (.setPosition 0) hmoved
  obtain ⟨plan, hplan, hname, hdot⟩ := shown_name hopened hused hinfo
  have hnames : plan.names = ["b"] := by
    rw [(Path.plan_names hplan).1]
    decide +kernel
  have hshown := hname.2 fun hd => absurd (hdot hd) (by decide)
  rw [hnames] at hshown
  exact ⟨g, t, q, _, hopened, hused, hinfo, plan, hplan, hnames, hshown⟩

/-- The root is opened by the name of the directory itself, and then that is the name it
is shown by, although none is walked. -/
theorem not_shown_name :
    ¬ ∀ {σ : Type} {step : σ → Call → Answer → σ → Prop} {v : Volume} {path : String}
      {h g g' : Handle} {s t s' t' : Session} {p q p' q' : σ} {info : FileInfo} {plan : Path.Plan},
      ((v.openPath path).runIn s).Runs step p (.ok h, t) q → h.Used step g →
      Handle.getInfo.Runs step g s' p' (.ok info) g' t' q' → Path.plan path true = .ok plan →
      plan.names.getLast? ≠ some Path.parent → info.name = plan.names.getLast?.getD "" := by
  intro hclaim
  have hruns := runs_titled "." "." [] (by decide +kernel) (by decide +kernel)
  obtain ⟨hopened, _, _, _, hinfo⟩ := hruns
  have hplan : Path.plan "." true = .ok ⟨false, []⟩ := by decide +kernel
  have hname := hclaim hopened .new hinfo hplan (by decide)
  exact absurd hname (by decide)

end Volume

end NineP
