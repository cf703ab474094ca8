import NineP.Proofs.Config.Variables
import NineP.Proofs.Program.Stages
import NineP.Proofs.Volume.Admission
import NineP.Proofs.Volume.Quiet

/-!
# What a program puts out

A program puts out what its command finds, and its exit status tells whether that is all of
it. What has been put out when the work on a handle fails is only part of it:

* `Program.Shows`: what has been put out is a part or the whole, and it is the whole if there
  is no failure;
* `Program.Worker`: work on a handle that is like this, once its texts are printed;
* `Program.shows_session`: then so is a session, whatever fails before and after;
* `Program.shows_run`: and the program, whatever its settings are.
-/

namespace NineP

namespace Program

open Session (Settled)

variable {M : Manners} {α : Type} {s : Session} {w : Console}

/-- What has been put out is a part or the whole. It is the whole if there is a result, and if
there is a failure, then its number is not zero. -/
structure Shows (Part Whole : Screen → Prop) (r : Except Error α) (shown : Screen) : Prop where
  numbered : Numbered r
  either : Part shown ∨ Whole shown
  whole : ∀ a, r = .ok a → Whole shown

namespace Shows

variable {Part Whole : Screen → Prop} {r : Except Error α} {shown : Screen}

theorem ok (a : α) (h : Whole shown) : Shows Part Whole (.ok a) shown :=
  ⟨.ok a, .inr h, fun _ _ => h⟩

theorem part (hr : Numbered r) (h : Part shown) (hfail : ∀ a, r ≠ .ok a) :
    Shows Part Whole r shown :=
  ⟨hr, .inl h, fun a ha => absurd ha (hfail a)⟩

/-- An exit status of zero says that it is the whole. -/
theorem of_status {r : Except Error Unit} (h : Shows Part Whole r shown) (hs : status r = 0) :
    Whole shown := by
  cases r with
  | ok a => exact h.whole a rfl
  | error e => exact absurd hs (h.numbered e rfl)

end Shows

/-! ## Printing -/

/-- The output takes all that is written to it. -/
theorem shows_print {bytes : Bytes} :
    (print bytes).Always (Console.Step M) s w
      (Client.Yields fun _ t w' => t = s ∧ w'.1 = w.1 ∧ w'.2 = w.2 ++ bytes) := by
  refine .ofExchange (.perform fun answer w' h => ?_)
  obtain ⟨p, shown⟩ := w
  obtain ⟨p', shown'⟩ := w'
  obtain ⟨hp, -, rfl⟩ := h
  cases hp
  exact ⟨(), rfl, rfl, rfl, rfl⟩

theorem shows_printTexts {texts : List String} :
    (texts.forM printText : Client PUnit).Always (Console.Step M) s w
      (Client.Yields fun _ _ w' => w'.2 = w.2 ++ texts.flatMap Text.toBytes) := by
  induction texts generalizing s w with
  | nil => exact .pure ⟨⟨⟩, rfl, (List.append_nil _).symm⟩
  | cons text texts ih =>
    have hprint : (printText text).Always (Console.Step M) s w _ := shows_print
    refine hprint.bind_of_yields fun _ t w' ⟨_, _, hw⟩ => ih.mono fun r u w'' ⟨a, hr, hw'⟩ => ?_
    refine ⟨a, hr, hw'.trans ?_⟩
    rw [hw, List.append_assoc, List.flatMap_cons]

/-! ## From opening to closing -/

variable {msize : UInt32} {replies : Replies} {Part Whole : Screen → Prop}

/-- What has been put out by the work on a handle is a part, and once its texts are printed
it is the whole. -/
structure Works (Part Whole : Screen → Prop) (r : Except Error (List String)) (shown : Screen) :
    Prop where
  numbered : Numbered r
  part : Part shown
  whole : ∀ texts, r = .ok texts → Whole (shown ++ texts.flatMap Text.toBytes)

/-- Work on a handle that nothing has been read from, which is like this. -/
def Worker (msize : UInt32) (replies : Replies) (Part Whole : Screen → Prop)
    (x : HandleClient (List String)) : Prop :=
  ∀ h s w, Handle.Untouched h → Settled msize s w.1 → w.2 = [] →
    x.Always (Console.Step (.prompt msize replies)) h s w fun r _ _ w' => Works Part Whole r w'.2

theorem shows_conduct {volume : Volume} {command : Command} {path : String}
    {x : HandleClient (List String)} (hc : work command = some (path, x))
    (hx : Worker msize replies Part Whole x) (hs : Settled msize s w.1) (hw : w.2 = [])
    (hempty : Part []) :
    Dialogue.Always (Console.Step (.prompt msize replies)) ((conduct volume command).run s) w
      fun r w' => Shows Part Whole r.1.1 w'.2 := by
  rw [conduct, hc]
  have hopen : (volume.openPath path).Always (Console.Step (.prompt msize replies)) s w
      fun r t w' => (∀ h, r = .ok h → h.Untouched ∧ Settled msize t w'.1) ∧ Hushed w.2 r w'.2 :=
    Dialogue.Always.both (Volume.settles_openPath volume path s w.1 hs)
      (Volume.quiet_openPath volume path s w.2)
  refine Dialogue.Always.bind hopen fun rt w' hopened => ?_
  obtain ⟨r, t⟩ := rt
  obtain ⟨hok, hkept, hr⟩ := hopened
  rw [hw] at hkept
  cases r with
  | error e => exact .done (.part hr.carry (hkept ▸ hempty) fun _ h => by cases h)
  | ok h =>
    obtain ⟨hh, hsettled⟩ := hok h rfl
    refine Dialogue.Always.bind (hx h t w' hh hsettled hkept) fun rgu w'' hworks => ?_
    obtain ⟨⟨r, g⟩, u⟩ := rgu
    cases r with
    | error e => exact .done (.part hworks.numbered.carry hworks.part fun _ h => by cases h)
    | ok texts =>
      have hclose : g.close.Always (Console.Step (.prompt msize replies)) u w'' fun r _ w =>
          Hushed w''.2 r w.2 :=
        Dialogue.Always.second (Handle.quiet_close g u w''.2)
      have hrest : (do g.close; texts.forM printText : Client Unit).Always
          (Console.Step (.prompt msize replies)) u w'' fun r _ w => Shows Part Whole r w.2 := by
        refine hclose.bind (fun _ v w hclosed => ?_) fun e v w hclosed => ?_
        · refine shows_printTexts.mono fun r _ w' hprinted => ?_
          obtain ⟨a, hr, hshown⟩ := hprinted
          rw [hr, hshown, hclosed.1]
          exact .ok a (hworks.whole texts rfl)
        · exact .part hclosed.2 (hclosed.1 ▸ hworks.part) fun _ h => by cases h
      exact Dialogue.Always.bind hrest fun _ _ hshows => .done hshows

/-- What an ending comes to. -/
def Ending.Shown (Part Whole : Screen → Prop) (shown : Screen) : Ending → Prop
  | .unconnected e | .unattached e => Numbered (.error e : Except Error Unit) ∧ Part shown
  | .finished result _ clunked => Shows Part Whole result shown ∧ Numbered clunked

theorem shows_errand {volume : Volume} {command : Command} {path : String}
    {x : HandleClient (List String)} (hc : work command = some (path, x))
    (hx : Worker msize replies Part Whole x) (hs : Settled msize s w.1) (hw : w.2 = [])
    (hempty : Part []) :
    Dialogue.Always (Console.Step (.prompt msize replies)) (errand volume command s) w
      fun ending w' => ending.Shown Part Whole w'.2 := by
  refine Dialogue.Always.bind (shows_conduct hc hx hs hw hempty) fun ((result, left), t) w' h => ?_
  have hclunk : Dialogue.Always (Console.Step (.prompt msize replies))
      ((Session.clunk volume.root.fid).runIn t) w' fun r w => Hushed w'.2 r.1 w.2 :=
    Dialogue.Always.second (Session.Query.quiet (.clunk volume.root.fid) t w'.2)
  refine Dialogue.Always.bind hclunk fun (clunked, u) w'' ⟨hkept, hr⟩ => .done ⟨?_, hr⟩
  rw [hkept]
  exact h

/-- A call that neither moves bytes nor puts any out leaves everything as it was. -/
theorem quiet_perform {c : Call} (hp : ∀ p answer q, Peer.Step M p c answer q → q = p)
    (hc : c.output = []) :
    (Exchange.perform c).Always (Console.Step M) w fun r w' => w' = w ∧ Numbered r := by
  have hpeer : (Exchange.perform c).Always (Peer.Step M) w.1 fun _ q => q = w.1 :=
    .perform fun answer q h => hp _ answer q h
  refine (Dialogue.Always.both hpeer (Exchange.Quiet.perform hc w.2)).mono ?_
  exact fun r w' ⟨hfirst, hsecond, hr⟩ => ⟨Prod.ext hfirst hsecond, hr⟩

/-- The refusal of a mistake has a number. -/
theorem numbered_of_screened {Right : α → Prop} {r : Except Error α} (h : Screened Right r) :
    Numbered r := by
  obtain ⟨a, rfl, -⟩ | ⟨misuse, rfl⟩ := h
  · exact .ok a
  · exact .error (by simp [Error.errno])

theorem keeps_connect (config : Config) :
    (connect config).Always (Console.Step M) w fun r w' => w' = w ∧ Numbered r := by
  rw [connect]
  have hvalidate := numbered_of_screened (Config.screened_validate config)
  cases hv : config.validate with
  | error e => exact .lift_bind_error rfl ⟨rfl, .error (hvalidate e hv)⟩
  | ok _ =>
    refine .lift_bind_ok rfl ((quiet_perform (by rintro _ _ _ ⟨⟩; rfl) rfl).bind
      (fun _ w' h => ?_) fun e w' h => ⟨h.1, h.2.carry⟩)
    rw [h.1]
    exact quiet_perform (by rintro _ _ _ ⟨⟩; rfl) rfl

theorem shows_course {config : Config} {command : Command} {path : String}
    {x : HandleClient (List String)} (hc : work command = some (path, x))
    (hx : Worker msize replies Part Whole x) (ha : replies.Agreeing msize) (hempty : Part []) :
    Dialogue.Always (Console.Step (.prompt msize replies)) (course config command) ({}, [])
      fun ending w' => ending.Shown Part Whole w'.2 := by
  refine Dialogue.Always.bind (keeps_connect config) fun r w ⟨hw, hr⟩ => ?_
  subst hw
  cases r with
  | error e => exact .done ⟨hr, hempty⟩
  | ok _ =>
    have hattach : (Volume.attach config).Always (Console.Step (.prompt msize replies))
        { timeout := config.timeout } ({}, []) fun r t w' =>
          (∀ root, r = .ok root → Settled msize t w'.1) ∧ Hushed [] r w'.2 :=
      Dialogue.Always.both (w := (({} : Peer), ([] : Screen))) (Volume.settled_attach config ha)
        (Volume.quiet_attach config { timeout := config.timeout } [])
    refine Dialogue.Always.bind hattach fun (r, s) w ⟨hok, hkept, hr⟩ => ?_
    cases r with
    | error e => exact .done ⟨hr.carry, hkept ▸ hempty⟩
    | ok root => exact shows_errand hc hx (hok root rfl) hkept hempty

/-- To close the connection decides nothing but the failure that is reported. -/
theorem shows_finish {ending : Ending} (h : ending.Shown Part Whole w.2) :
    ending.finish.Always (Console.Step M) w fun r w' => Shows Part Whole r w'.2 := by
  have hclose : Dialogue.Always (Console.Step M) (Exchange.perform .close).run w fun r w' =>
      w' = w ∧ Numbered r := quiet_perform (by rintro _ _ _ ⟨⟩; rfl) rfl
  cases ending with
  | unconnected e => exact .throw (.part h.1 h.2 nofun)
  | unattached e =>
    exact .dialogue_bind hclose fun _ w' ⟨hw, _⟩ => .throw (.part h.1 (hw ▸ h.2) nofun)
  | finished result left clunked =>
    refine .dialogue_bind hclose fun closed w' ⟨hw, hclosed⟩ => ?_
    obtain ⟨hshows, hclunked⟩ := h
    subst hw
    cases result with
    | error e => exact .throw hshows
    | ok _ =>
      have hwhole := hshows.whole _ rfl
      cases closed with
      | error e => exact .throw ⟨hclosed, .inr hwhole, nofun⟩
      | ok _ => exact Dialogue.Always.done ⟨hclunked, .inr hwhole, fun _ _ => hwhole⟩

/-- If the work on its handle is like this, then so is the program. -/
theorem shows_session {config : Config} {command : Command} {path : String}
    {x : HandleClient (List String)} (hc : work command = some (path, x))
    (hx : Worker msize replies Part Whole x) (ha : replies.Agreeing msize) (hempty : Part []) :
    (session config command).Always (Console.Step (.prompt msize replies)) ({}, [])
      fun r w => Shows Part Whole r w.2 := by
  show Dialogue.Always _ (session config command).run _ _
  rw [session_eq]
  exact (shows_course hc hx ha hempty).bind fun ending w h => shows_finish h

/-! ## The settings -/

/-- The settings of a command line are acceptable, or else a mistake is refused. -/
theorem screened_config (settings : Settings) :
    Screened (fun config => config.validate = .ok ()) settings.config := by
  refine (screened_parseDialBy spelledHosts _ _).bind fun remote _ => ?_
  refine (Screened.mapM Config.screened_readStation _).bind fun station _ => ?_
  refine (Screened.mapM screened_parseIPv4 _).bind fun subnetMask _ => ?_
  exact (Config.screened_validate _).bind fun _ h => .ok h

theorem shows_run {settings : Settings} {path : String} {x : HandleClient (List String)}
    (hc : work settings.command = some (path, x)) (hx : Worker msize replies Part Whole x)
    (ha : replies.Agreeing msize) (hempty : Part []) :
    (run (.work settings)).Always (Console.Step (.prompt msize replies)) ({}, [])
      fun r w => Shows Part Whole r w.2 := by
  show Exchange.Always _ (liftM settings.config >>= fun config =>
    session config settings.command) _ _
  have hconfig := numbered_of_screened (screened_config settings)
  cases hs : settings.config with
  | error e => exact .lift_bind_error rfl (.part (.error (hconfig e hs)) hempty nofun)
  | ok config => exact .lift_bind_ok rfl (shows_session hc hx ha hempty)

end Program

end NineP
