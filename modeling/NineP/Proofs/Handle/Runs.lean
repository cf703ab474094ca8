import NineP.Handle
import NineP.Proofs.Session.Runs

/-!
# Runs of operations on a handle

What holds of the result of an operation on a handle, and of the handle, the
session and the world after it, in every run (`HandleClient.Always`), with a rule
for each way to put operations together. The operations that take fids and give
them back have rules of their own, so that what holds of them in some world is had
from what holds there of their requests:

* `Client.Always.descend_cons`, `Client.Always.resolve_of_descend`: the way through
  a path;
* `HandleClient.Always.openOn_of_lopen`, `HandleClient.Always.ensureOpen_of_openOn`:
  the fid that a handle is read from;
* `Client.Always.establish_of_ensureOpen`, `Client.Always.close_of_clunk`: the life
  of a handle.
-/

namespace NineP

namespace HandleClient

variable {σ α β : Type} {step : σ → Call → Answer → σ → Prop}

/-- Every result of an operation, with the handle, the session and the world
after it, is as `Q` has it. -/
def Always (step : σ → Call → Answer → σ → Prop) (x : HandleClient α) (h : Handle) (s : Session)
    (p : σ) (Q : Except Error α → Handle → Session → σ → Prop) : Prop :=
  Dialogue.Always step ((x.run.run h).run s) p fun r q => Q r.1.1 r.1.2 r.2 q

/-- From a handle, a session and a state of the world, an operation may have this
result and leave them like this. -/
def Runs (step : σ → Call → Answer → σ → Prop) (x : HandleClient α) (h : Handle) (s : Session)
    (p : σ) (r : Except Error α) (g : Handle) (t : Session) (q : σ) : Prop :=
  Dialogue.Runs step p ((x.run.run h).run s) ((r, g), t) q

/-- An operation has a result wherever its calls are answered. -/
theorem Runs.total (ht : ∀ s c, ∃ answer t, step s c answer t) (x : HandleClient α) (h : Handle)
    (s : Session) (p : σ) : ∃ r g t q, Runs step x h s p r g t q := by
  obtain ⟨⟨⟨r, g⟩, t⟩, q, hr⟩ := Dialogue.Runs.total ht ((x.run.run h).run s) p
  exact ⟨r, g, t, q, hr⟩

namespace Always

variable {x : HandleClient α} {h : Handle} {s : Session} {p : σ}
  {Q R : Except Error α → Handle → Session → σ → Prop}

theorem of_runs {r : Except Error α} {g : Handle} {t : Session} {q : σ}
    (hx : Always step x h s p Q) (hr : Runs step x h s p r g t q) : Q r g t q :=
  hx ((r, g), t) q hr

theorem pure {a : α} (hq : Q (.ok a) h s p) : Always step (pure a) h s p Q :=
  Dialogue.Always.done hq

theorem throw {e : Error} (hq : Q (.error e) h s p) : Always step (throw e) h s p Q :=
  Dialogue.Always.done hq

theorem mono (hx : Always step x h s p R) (hq : ∀ r g t q, R r g t q → Q r g t q) :
    Always step x h s p Q :=
  Dialogue.Always.mono hx fun r q hr => hq r.1.1 r.1.2 r.2 q hr

/-- What comes after an operation that failed is left out. -/
theorem bind {f : α → HandleClient β} {Q : Except Error β → Handle → Session → σ → Prop}
    (hx : Always step x h s p R)
    (hok : ∀ a g t q, R (.ok a) g t q → Always step (f a) g t q Q)
    (herr : ∀ e g t q, R (.error e) g t q → Q (.error e) g t q) :
    Always step (x >>= f) h s p Q := by
  show Dialogue.Always step ((x.run.run h).run s >>= fun r => _) p _
  refine Dialogue.Always.bind hx fun r q hr => ?_
  obtain ⟨⟨r, g⟩, t⟩ := r
  cases r with
  | ok a => exact hok a g t q hr
  | error e => exact .done (herr e g t q hr)

theorem map {f : α → β} {Q : Except Error β → Handle → Session → σ → Prop}
    (hx : Always step x h s p fun r g t q => Q (f <$> r) g t q) :
    Always step (f <$> x) h s p Q := by
  rw [map_eq_pure_bind]
  exact hx.bind (fun a g t q hq => pure hq) fun e g t q hq => hq

theorem get_bind {f : Handle → HandleClient β} {Q : Except Error β → Handle → Session → σ → Prop}
    (hf : Always step (f h) h s p Q) : Always step (get >>= f) h s p Q := hf

theorem set_bind {g : Handle} {f : PUnit → HandleClient β}
    {Q : Except Error β → Handle → Session → σ → Prop} (hf : Always step (f ⟨⟩) g s p Q) :
    Always step (set g >>= f) h s p Q := hf

theorem relies {c : Prop} [Decidable c] (hx : Always step x h s p R) :
    Always step (relying c x) h s p R := hx

/-- What relies on the session is told by what it does in this one. -/
theorem session_bind {c : Session → Prop} [DecidablePred c] {f : Session → HandleClient β}
    {Q : Except Error β → Handle → Session → σ → Prop} (hf : Always step (f s) h s p Q) :
    Always step (HandleClient.ofClient get >>= fun s => relying (c s) (f s)) h s p Q := hf

/-- An operation of the session leaves the handle as it is. -/
theorem ofClient {x : Client α} (hx : x.Always step s p fun r t q => Q r h t q) :
    Always step (ofClient x) h s p Q := by
  show Dialogue.Always step (x.runIn s >>= fun r => .done ((r.1, h), r.2)) p _
  exact Dialogue.Always.bind hx fun r q hr => .done hr

theorem ofClient_bind {x : Client α} {f : α → HandleClient β}
    {R : Except Error α → Session → σ → Prop} {Q : Except Error β → Handle → Session → σ → Prop}
    (hx : x.Always step s p R) (hok : ∀ a t q, R (.ok a) t q → Always step (f a) h t q Q)
    (herr : ∀ e t q, R (.error e) t q → Q (.error e) h t q) :
    Always step (HandleClient.ofClient x >>= f) h s p Q := by
  have hof : Always step (HandleClient.ofClient x) h s p fun r g t q => g = h ∧ R r t q :=
    ofClient (hx.mono fun r t q hr => ⟨rfl, hr⟩)
  refine hof.bind (fun a g t q ⟨hg, hr⟩ => ?_) fun e g t q ⟨hg, hr⟩ => ?_
  · exact hg ▸ hok a t q hr
  · exact hg ▸ herr e t q hr

/-- An operation of the session that never fails. -/
theorem ofClient_bind_of_yields {x : Client α} {f : α → HandleClient β}
    {R : α → Session → σ → Prop} {Q : Except Error β → Handle → Session → σ → Prop}
    (hx : x.Always step s p (Client.Yields R))
    (hf : ∀ a t q, R a t q → Always step (f a) h t q Q) :
    Always step (HandleClient.ofClient x >>= f) h s p Q := by
  refine ofClient_bind hx (fun a t q ⟨a', ha, hr⟩ => ?_) fun e t q ⟨a', ha, _⟩ => by cases ha
  obtain rfl := Except.ok.inj ha
  exact hf a t q hr

/-- A check refuses, or what is behind it goes on. -/
theorem refuse {c : Prop} [Decidable c] {e : Error} {f : PUnit → HandleClient α}
    (hc : c → Q (.error e) h s p) (hf : ¬ c → Always step (f ()) h s p Q) :
    Always step (if c then do f (← MonadExcept.throw e) else f ()) h s p Q := by
  by_cases hcase : c
  · rw [if_pos hcase]
    exact throw (hc hcase)
  · rw [if_neg hcase]
    exact hf hcase

end Always

end HandleClient

/-- An operation on a handle, as one of the session, never fails. -/
theorem Client.Always.runOn {σ α : Type} {step : σ → Call → Answer → σ → Prop}
    {x : HandleClient α} {h : Handle} {s : Session} {p : σ}
    {R : Except Error α → Handle → Session → σ → Prop} (hx : x.Always step h s p R) :
    (x.runOn h).Always step s p (Client.Yields fun r => R r.1 r.2) := by
  show Dialogue.Always step ((x.run.run h).run s >>= fun r => .done (Except.ok r.1, r.2)) p _
  exact Dialogue.Always.bind hx fun r q hr => .done ⟨r.1, rfl, hr⟩

/-! ## Paths -/

/-- A name that leads up from the root is not found. Any other is walked to, and then the fid
of the step before is given back. -/
theorem Client.Always.descend_cons {σ : Type} {step : σ → Call → Answer → σ → Prop} {s : Session}
    {p : σ} {root : Qid} {owned : Option UInt32} {current : Location} {name : String}
    {names : List String} {Q : Except Error Location → Session → σ → Prop}
    (hup : (name == Path.parent && current.qid.sameObject root) = true →
      (Session.releaseAny owned).Always step s p (Yields fun _ => Q (.error (.server .notFound))))
    (hwalk : ¬ (name == Path.parent && current.qid.sameObject root) = true →
      Always step (do
        let fid ← Client.freshFid
        let step ← Client.attempt (Session.walk current.fid fid [name])
        Session.releaseAny owned
        match step with
        | .error e => MonadExcept.throw e
        | .ok [] => MonadExcept.throw (.server .notFound)
        | .ok (qid :: _) => Session.descend root (some fid) { fid, qid } names) s p Q) :
    Always step (Session.descend root owned current (name :: names)) s p Q := by
  show Always _ (if _ then _ else _) _ _ _
  by_cases h : (name == Path.parent && current.qid.sameObject root) = true
  · rw [if_pos h]
    exact (hup h).bind_of_yields fun _ _ _ hq => throw hq
  · rw [if_neg h]
    exact hwalk h

/-- A path that leads above the root is not found. The names of any other are walked
from where it starts, and without names there is a clone of that. -/
theorem Client.Always.resolve_of_descend {σ : Type} {step : σ → Call → Answer → σ → Prop}
    {s : Session} {p : σ} {root start : Location} {path : String}
    {Q : Except Error Location → Session → σ → Prop}
    (hclimbs : Path.plan path (start.fid == root.fid || start.qid.sameObject root.qid) =
      .error (.server .notFound) → Q (.error (.server .notFound)) s p)
    (hclone : Path.plan path (start.fid == root.fid || start.qid.sameObject root.qid) =
        .ok ⟨Path.isAbsolute path, Path.components path⟩ → Path.components path = [] →
      let origin := if Path.isAbsolute path then root else start
      Always step (do
        let fid ← Client.freshFid
        let _ ← Session.walk origin.fid fid []
        Pure.pure { fid, qid := origin.qid }) s p Q)
    (hdescend : Path.plan path (start.fid == root.fid || start.qid.sameObject root.qid) =
        .ok ⟨Path.isAbsolute path, Path.components path⟩ → Path.components path ≠ [] →
      let origin := if Path.isAbsolute path then root else start
      Always step (Session.descend root.qid none origin (Path.components path)) s p Q) :
    Always step (Session.resolve root start path) s p Q := by
  let atRoot := start.fid == root.fid || start.qid.sameObject root.qid
  show Always _ (liftM (Path.plan path atRoot) >>= fun plan => _) _ _ _
  by_cases hclimb : ((Path.isAbsolute path || atRoot) &&
      !Path.staysBelow 0 (Path.components path)) = true
  · have hplan : Path.plan path atRoot = .error (.server .notFound) := if_pos hclimb
    exact lift_bind_error hplan (hclimbs hplan)
  · have hplan : Path.plan path atRoot =
        .ok ⟨Path.isAbsolute path, Path.components path⟩ := if_neg hclimb
    refine lift_bind_ok hplan ?_
    show Always _ (if (Path.components path).isEmpty then _ else _) _ _ _
    by_cases hnil : (Path.components path).isEmpty = true
    · rw [if_pos hnil]
      exact hclone hplan (List.isEmpty_iff.1 hnil)
    · rw [if_neg hnil]
      exact hdescend hplan fun hnames => hnil (List.isEmpty_iff.2 hnames)

/-! ## Opening and closing -/

section

variable {σ : Type} {step : σ → Call → Answer → σ → Prop} {h : Handle} {s : Session} {p : σ}

namespace HandleClient.Always

variable {Q : Except Error UInt32 → Handle → Session → σ → Prop}

theorem openOn_of_lopen {fid : UInt32} {R : Except Error (Qid × UInt32) → Session → σ → Prop}
    (hopen : (Session.lopen fid Handle.readOnlyFlags).Always step s p R)
    (hok : ∀ qid iounit t q, R (.ok (qid, iounit)) t q →
      let qid := if fid = h.location.fid then qid else h.location.qid
      Q (.ok fid) { h with location := { h.location with qid }, iounit, ioFid := some fid } t q)
    (hown : fid = h.location.fid → ∀ e t q, R (.error e) t q → Q (.error e) h t q)
    (hclone : fid ≠ h.location.fid → ∀ e t q, R (.error e) t q →
      (Session.release fid).Always step t q (Client.Yields fun _ => Q (.error e) h)) :
    Always step (h.openOn fid) h s p Q := by
  refine ofClient_bind_of_yields hopen.attempt fun r t q hr => ?_
  cases r with
  | ok opened => exact set_bind (pure (hok opened.1 opened.2 t q hr))
  | error e =>
    show Always _ (if fid ≠ h.location.fid then _ else _) _ _ _ _
    by_cases hfid : fid = h.location.fid
    · rw [if_neg (fun hne => hne hfid)]
      exact throw (hown hfid e t q hr)
    · rw [if_pos hfid]
      exact ofClient_bind_of_yields (hclone hfid e t q hr) fun _ _ _ hq => throw hq

/-- A handle that is open stays as it is. A directory is opened on a clone of its
fid, and anything else on its own. -/
theorem ensureOpen_of_openOn (hopen : ∀ fid, h.ioFid = some fid → Q (.ok fid) h s p)
    (hclone : h.ioFid = none → h.kind = .directory →
      Always step (do
        let clone ← HandleClient.ofClient Client.freshFid
        let _ ← HandleClient.ofClient (Session.walk h.location.fid clone [])
        h.openOn clone) h s p Q)
    (hown : h.ioFid = none → h.kind ≠ .directory →
      Always step (h.openOn h.location.fid) h s p Q) :
    Always step Handle.ensureOpen h s p Q := by
  refine get_bind ?_
  cases hio : h.ioFid with
  | some fid => exact pure (hopen fid hio)
  | none =>
    show Always _ (if h.kind = .directory then _ else _) _ _ _ _
    by_cases hd : h.kind = .directory
    · rw [if_pos hd]
      simp only [pure_bind]
      exact hclone hio hd
    · rw [if_neg hd, pure_bind]
      exact hown hio hd

end HandleClient.Always

namespace Client.Always

/-- The fid of a regular file that cannot be opened is given back. Nothing else is
opened before it is read. -/
theorem establish_of_ensureOpen {root location : Location} {path : String}
    {R : Except Error UInt32 → Handle → Session → σ → Prop}
    {Q : Except Error Handle → Session → σ → Prop}
    (hopen : (Handle.fresh root location path).kind = .regular →
      Handle.ensureOpen.Always step (Handle.fresh root location path) s p R)
    (hok : ∀ fid g t q, R (.ok fid) g t q → Q (.ok g) t q)
    (herr : ∀ e g t q, R (.error e) g t q →
      (Session.release g.location.fid).Always step t q (Yields fun _ => Q (.error e)))
    (hother : (Handle.fresh root location path).kind ≠ .regular →
      Q (.ok (Handle.fresh root location path)) s p) :
    Always step (Handle.establish root location path) s p Q := by
  show Always _ (if (Handle.fresh root location path).kind = .regular then _ else _) _ _ _
  by_cases hk : (Handle.fresh root location path).kind = .regular
  · rw [if_pos hk]
    refine bind_of_yields (runOn (hopen hk)) fun (r, g) t q hg => ?_
    cases r with
    | ok fid => exact pure (hok fid g t q hg)
    | error e => exact (herr e g t q hg).bind_of_yields fun _ _ _ hq => throw hq
  · rw [if_neg hk]
    exact pure (hother hk)

/-- A clone is clunked before the fid of the handle, which is clunked whatever
comes of that. The first failure is the result. -/
theorem close_of_clunk {Q R : Except Error Unit → Session → σ → Prop}
    (hown : (∀ fid, h.ioFid = some fid → fid = h.location.fid) →
      (Session.clunk h.location.fid).Always step s p Q)
    (hclone : ∀ fid, h.ioFid = some fid → fid ≠ h.location.fid →
      (Session.clunk fid).Always step s p R)
    (hboth : ∀ clone t q, R clone t q →
      (Session.clunk h.location.fid).Always step t q fun own => Q (clone >>= fun _ => own)) :
    Always step h.close s p Q := by
  have alone (hq : (Session.clunk h.location.fid).Always step s p Q) :
      Always step (do
        let own ← Client.attempt (Session.clunk h.location.fid)
        liftM own : Client Unit) s p Q :=
    hq.attempt.bind_of_yields fun _ _ _ hown => .lift hown
  rw [Handle.close]
  cases hio : h.ioFid with
  | none =>
    rw [pure_bind]
    exact alone (hown fun _ hfid => by rw [hio] at hfid; cases hfid)
  | some fid =>
    show Always _ (if fid = h.location.fid then _ else _) _ _ _
    by_cases hfid : fid = h.location.fid
    · rw [if_pos hfid, pure_bind]
      exact alone (hown fun _ hfid' => Option.some.inj (hio.symm.trans hfid') ▸ hfid)
    · rw [if_neg hfid]
      refine (hclone fid hio hfid).attempt.bind_of_yields fun clone t q hq => ?_
      refine (hboth clone t q hq).attempt.bind_of_yields fun own u q' hown => ?_
      cases clone with
      | ok _ => exact .lift hown
      | error e => exact .throw hown

end Client.Always

end

end NineP
