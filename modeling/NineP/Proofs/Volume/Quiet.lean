import NineP.Proofs.Handle.Opening
import NineP.Proofs.Session.Record
import NineP.Proofs.World.Console
import NineP.Volume

/-!
# Operations that put nothing out

Nothing is put out by an operation of a session, nor by mounting a volume, opening a path,
reading a file, listing a directory or closing a handle. Each of these fails with an error
that has a number other than zero, as long as no call fails:

* `Numbered`: if there is a failure, then its number is not zero;
* `Exchange.Quiet`, `Client.Quiet`, `HandleClient.Quiet`: such operations, with a rule for
  each way to put them together;
* `Session.Query.quiet`: an operation of a session;
* `Handle.quiet_readData`, `Handle.quiet_readEntry`, `Handle.quiet_close`, `Volume.quiet_attach`,
  `Volume.quiet_openPath`: those that programs are made of.
-/

namespace NineP

/-- If there is a failure, then its number is not zero. -/
def Numbered (r : Except Error α) : Prop := ∀ e, r = .error e → e.errno ≠ 0

theorem Numbered.ok (a : α) : Numbered (.ok a : Except Error α) := fun _ h => by cases h

theorem Numbered.error {e : Error} (h : e.errno ≠ 0) : Numbered (.error e : Except Error α) :=
  fun _ he => Except.error.inj he ▸ h

/-- Of a failure only its error counts. -/
theorem Numbered.carry {e : Error} (h : Numbered (.error e : Except Error α)) :
    Numbered (.error e : Except Error β) := .error (h e rfl)

theorem Numbered.bind {r : Except Error α} {f : α → Except Error β} (hr : Numbered r)
    (hf : ∀ a, Numbered (f a)) : Numbered (r >>= f) := by
  cases r with
  | ok a => exact hf a
  | error e => exact hr.carry

/-- Nothing has been put out, and if there is a failure, then its number is not zero. -/
def Hushed (shown : Screen) (r : Except Error α) (shown' : Screen) : Prop :=
  shown' = shown ∧ Numbered r

namespace Exchange

/-- An exchange that puts nothing out. -/
def Quiet (x : Exchange α) : Prop := ∀ shown, x.Always Screen.Step shown (Hushed shown)

namespace Quiet

variable {x : Exchange α}

theorem pure (a : α) : Quiet (Pure.pure a) := fun _ => .pure ⟨rfl, .ok a⟩

theorem throw {e : Error} (h : e.errno ≠ 0) : Quiet (throw e : Exchange α) :=
  fun _ => .throw ⟨rfl, .error h⟩

theorem bind {f : α → Exchange β} (hx : x.Quiet) (hf : ∀ a, (f a).Quiet) : (x >>= f).Quiet :=
  fun shown => (hx shown).bind (fun a _ h => h.1 ▸ hf a _) fun _ _ h => ⟨h.1, h.2.carry⟩

theorem call {c : Call} (hc : c.output = []) : (call c).Quiet :=
  fun shown => .call fun answer shown' h => by
    obtain ⟨hfailed, rfl⟩ := h
    refine ⟨by rw [hc, List.append_nil], ?_⟩
    cases answer with
    | done bytes => exact .ok bytes
    | failed e => exact absurd rfl (hfailed e)
    | stalled => exact .error (by decide)

theorem perform {c : Call} (hc : c.output = []) : (perform c).Quiet :=
  (call hc).bind fun _ => pure ()

theorem collectFrom (fuel wanted : Nat) (acc : Bytes) : (collectFrom fuel wanted acc).Quiet := by
  induction fuel generalizing wanted acc with
  | zero =>
    cases wanted with
    | zero => exact pure _
    | succ wanted => exact throw (by decide)
  | succ fuel ih =>
    cases wanted with
    | zero => exact pure _
    | succ wanted =>
      refine ((call rfl).bind fun bytes => pure _).bind fun bytes => ?_
      split
      · exact throw (by decide)
      · exact ih _ _

theorem collect (wanted : Nat) : (collect wanted).Quiet := collectFrom wanted wanted []

theorem relies {c : Prop} [Decidable c] (hx : x.Quiet) : Quiet (relying c x) := hx

/-- A check refuses, or what is behind it goes on. -/
theorem refuse {c : Prop} [Decidable c] {e : Error} {f : PUnit → Exchange α} (he : e.errno ≠ 0)
    (hf : (f ()).Quiet) : Quiet (if c then do f (← MonadExcept.throw e) else f ()) :=
  fun shown => .refuse (fun _ => ⟨rfl, .error he⟩) fun _ => hf shown

theorem exchange (request : Bytes) (capacity : Nat) (limit : Option UInt64) :
    (exchange request capacity limit).Quiet := by
  refine (perform rfl).bind fun _ => (collect _).bind fun field => ?_
  refine relies (refuse (by simp [Error.errno]) (refuse ?_ ((collect _).bind fun rest => pure _)))
  simp [Error.errno, Fault.errno, Fault.kind]

end Quiet

end Exchange

/-! ## Sessions -/

theorem Error.errno_of_isUnsent {e : Error} (h : e.isUnsent = true) : e.errno = 22 := by
  cases e with
  | invalidParameter => rfl
  | _ => cases h

namespace Client

/-- An operation of a session that puts nothing out. -/
def Quiet (x : Client α) : Prop :=
  ∀ s shown, x.Always Screen.Step s shown fun r _ shown' => Hushed shown r shown'

namespace Quiet

variable {x : Client α}

theorem pure (a : α) : Quiet (Pure.pure a) := fun _ _ => .pure ⟨rfl, .ok a⟩

theorem throw {e : Error} (h : e.errno ≠ 0) : Quiet (throw e : Client α) :=
  fun _ _ => .throw ⟨rfl, .error h⟩

theorem lift {r : Except Error α} (h : Numbered r) : Quiet (liftM r) := fun _ _ => .lift ⟨rfl, h⟩

theorem bind {f : α → Client β} (hx : x.Quiet) (hf : ∀ a, (f a).Quiet) : (x >>= f).Quiet :=
  fun s shown => (hx s shown).bind (fun a _ _ h => h.1 ▸ hf a _ _) fun _ _ _ h => ⟨h.1, h.2.carry⟩

/-- A failure that is met goes on with its number. -/
theorem attempt_bind {f : Except Error α → Client β} (hx : x.Quiet)
    (hf : ∀ r, Numbered r → (f r).Quiet) : (attempt x >>= f).Quiet :=
  fun s shown => (hx s shown).attempt.bind_of_yields fun r _ _ h => h.1 ▸ hf r h.2 _ _

theorem freshFid : Quiet freshFid := fun _ _ => Dialogue.Always.done ⟨rfl, .ok _⟩

end Quiet

end Client

namespace Session.Query

variable {α : Type} {s : Session} {op : Query α} {frame : Bytes}

theorem numbered_sends : Numbered (op.sends s) := by
  rw [sends]
  refine Numbered.bind ?_ fun _ => Numbered.bind ?_ fun _ => .ok _
  · cases op with
    | negotiate proposal =>
      rw [vetted]
      split
      · exact .error (by simp [Error.errno])
      · exact .ok ()
    | _ => exact .ok ()
  · intro e he
    rw [Error.errno_of_isUnsent (isUnsent_of_requestFrame (op.response_body s) he)]
    decide

theorem numbered_result {r : Except Error Bytes} (hr : Numbered r) : Numbered (op.result s r) := by
  cases r with
  | ok frame =>
    obtain ⟨v, hv⟩ := op.exists_verdict s frame
    rw [result_of_verdict hv]
    exact fun e he => (ofResponse_of_verdict (he ▸ hv)).errno_ne_zero
  | error e => exact hr.carry

/-- An operation puts nothing out. -/
theorem quiet (op : Query α) : op.perform.Quiet := fun _ shown =>
  Query.always (fun e he => ⟨rfl, .error (numbered_sends e he)⟩) fun request _ =>
    (Exchange.Quiet.exchange request _ _ shown).mono fun _ _ h => ⟨h.1, numbered_result h.2⟩

end Session.Query

namespace Session

open Client (Quiet)

theorem quiet_release (fid : UInt32) : Quiet (release fid) :=
  .attempt_bind (Query.quiet (.clunk fid)) fun _ _ => .pure ()

theorem quiet_releaseAny (owned : Option UInt32) : Quiet (releaseAny owned) := by
  cases owned with
  | none => exact .pure ()
  | some fid => exact quiet_release fid

theorem quiet_descend (root : Qid) (owned : Option UInt32) (current : Location)
    (names : List String) : Quiet (descend root owned current names) := by
  induction names generalizing owned current with
  | nil => exact .pure current
  | cons name names ih =>
    rw [descend]
    split
    · exact (quiet_releaseAny owned).bind fun _ => .throw (ServerError.errno_ne_zero .notFound)
    · refine .bind .freshFid fun fid => ?_
      refine .attempt_bind (Query.quiet (.walk current.fid fid [name])) fun step hstep => ?_
      refine (quiet_releaseAny owned).bind fun _ => ?_
      rcases step with e | _ | ⟨qid, _⟩
      · exact .throw (hstep e rfl)
      · exact .throw (ServerError.errno_ne_zero .notFound)
      · exact ih _ _

theorem numbered_plan (path : String) (startIsRoot : Bool) :
    Numbered (Path.plan path startIsRoot) := by
  rw [Path.plan]
  split
  · exact .error (ServerError.errno_ne_zero .notFound)
  · exact .ok _

theorem quiet_resolve (root start : Location) (path : String) :
    Quiet (resolve root start path) := by
  refine .bind (.lift (numbered_plan _ _)) fun plan => ?_
  show Quiet (if plan.names.isEmpty then _ else _)
  split
  · refine .bind .freshFid fun fid => ?_
    exact .bind (Query.quiet (.walk (if plan.fromRoot then root else start).fid fid []))
      fun _ => .pure _
  · exact quiet_descend _ _ _ _

end Session

/-! ## Handles -/

namespace HandleClient

/-- An operation on a handle that puts nothing out. -/
def Quiet (x : HandleClient α) : Prop :=
  ∀ h s shown, x.Always Screen.Step h s shown fun r _ _ shown' => Hushed shown r shown'

namespace Quiet

variable {x : HandleClient α}

theorem pure (a : α) : Quiet (Pure.pure a) := fun _ _ _ => .pure ⟨rfl, .ok a⟩

theorem throw {e : Error} (h : e.errno ≠ 0) : Quiet (throw e : HandleClient α) :=
  fun _ _ _ => .throw ⟨rfl, .error h⟩

theorem bind {f : α → HandleClient β} (hx : x.Quiet) (hf : ∀ a, (f a).Quiet) : (x >>= f).Quiet :=
  fun h s shown => (hx h s shown).bind (fun a _ _ _ hr => hr.1 ▸ hf a _ _ _)
    fun _ _ _ _ hr => ⟨hr.1, hr.2.carry⟩

theorem get_bind {f : Handle → HandleClient β} (hf : ∀ h, (f h).Quiet) : Quiet (get >>= f) :=
  fun h s shown => .get_bind (hf h h s shown)

theorem set_bind {h : Handle} {f : PUnit → HandleClient β} (hf : (f ⟨⟩).Quiet) :
    Quiet (set h >>= f) :=
  fun _ s shown => .set_bind (hf h s shown)

theorem relies {c : Prop} [Decidable c] (hx : x.Quiet) : Quiet (relying c x) := hx

theorem session_bind {c : Session → Prop} [DecidablePred c] {f : Session → HandleClient β}
    (hf : ∀ s, (f s).Quiet) : Quiet (ofClient get >>= fun s => relying (c s) (f s)) :=
  fun h s shown => .session_bind (hf s h s shown)

theorem ofClient {x : Client α} (hx : x.Quiet) : Quiet (ofClient x) :=
  fun _ s shown => .ofClient (hx s shown)

/-- A failure that is met goes on with its number. -/
theorem attempt_bind {x : Client α} {f : Except Error α → HandleClient β} (hx : x.Quiet)
    (hf : ∀ r, Numbered r → (f r).Quiet) :
    Quiet (HandleClient.ofClient (Client.attempt x) >>= f) :=
  fun _ s shown => .ofClient_bind_of_yields (hx s shown).attempt
    fun r _ _ hr => hr.1 ▸ hf r hr.2 _ _ _

theorem refuse {c : Prop} [Decidable c] {e : Error} {f : PUnit → HandleClient α}
    (he : e.errno ≠ 0) (hf : (f ()).Quiet) :
    Quiet (if c then do f (← MonadExcept.throw e) else f ()) :=
  fun h s shown => .refuse (fun _ => ⟨rfl, .error he⟩) fun _ => hf h s shown

end Quiet

end HandleClient

/-- An operation on a handle, as one of the session, meets its failures. -/
theorem Client.Quiet.runOn_bind {x : HandleClient α} {h : Handle}
    {f : Except Error α × Handle → Client β} (hx : x.Quiet)
    (hf : ∀ r g, Numbered r → (f (r, g)).Quiet) : Quiet (x.runOn h >>= f) :=
  fun s shown => (Client.Always.runOn (hx h s shown)).bind_of_yields
    fun r _ _ hr => hr.1 ▸ hf r.1 r.2 hr.2 _ _

namespace Handle

open HandleClient (Quiet)
open Session (Query)

theorem quiet_openOn (h : Handle) (fid : UInt32) : Quiet (h.openOn fid) := by
  refine .attempt_bind (Query.quiet (.lopen fid readOnlyFlags)) fun r hr => ?_
  rcases r with e | ⟨qid, iounit⟩
  · show Quiet (if fid ≠ h.location.fid then _ else _)
    split
    · exact (HandleClient.Quiet.ofClient (Session.quiet_release fid)).bind fun _ =>
        .throw (hr e rfl)
    · exact .throw (hr e rfl)
  · exact .set_bind (.pure fid)

theorem quiet_ensureOpen : Quiet ensureOpen := by
  refine .get_bind fun h => ?_
  cases h.ioFid with
  | some fid => exact .pure fid
  | none =>
    show Quiet (if h.kind = .directory then _ else _)
    split
    · refine .bind (.ofClient .freshFid) fun clone => ?_
      refine .bind (.ofClient (Query.quiet (.walk h.location.fid clone []))) fun _ => ?_
      rw [pure_bind]
      exact quiet_openOn h clone
    · rw [pure_bind]
      exact quiet_openOn h h.location.fid

theorem quiet_establish (root location : Location) (path : String) :
    (establish root location path).Quiet := by
  rw [establish]
  split
  · refine .runOn_bind quiet_ensureOpen fun r g hr => ?_
    cases r with
    | ok fid => exact .pure g
    | error e => exact (Session.quiet_release _).bind fun _ => .throw (hr e rfl)
  · exact .pure _

theorem quiet_readFrom (fid : UInt32) (start : UInt64) (fuel wanted : Nat) (acc : Bytes) :
    Quiet (readFrom fid start fuel wanted acc) := by
  induction fuel generalizing wanted acc with
  | zero => exact .pure _
  | succ fuel ih =>
    cases wanted with
    | zero => exact .pure _
    | succ wanted =>
      refine .get_bind fun h => .session_bind fun s => ?_
      have hread (count : UInt32) : (Session.read fid h.position count).Quiet :=
        Query.quiet (.read fid h.position count)
      refine .attempt_bind (hread _) fun r hr => ?_
      rcases r with e | _ | ⟨byte, bytes⟩
      · exact .set_bind (.throw (hr e rfl))
      · exact .pure _
      · exact .relies (.set_bind (ih _ _))

/-- To read a file puts nothing out. -/
theorem quiet_readData (wanted : Nat) : Quiet (readData wanted) := by
  refine .get_bind fun h => .refuse (by simp [Error.errno]) ?_
  exact quiet_ensureOpen.bind fun fid => .get_bind fun g => quiet_readFrom _ _ _ _ _

theorem quiet_entryInfo (h : Handle) (entry : DirEntry) : (h.entryInfo entry).Quiet := by
  refine .bind .freshFid fun fid => ?_
  refine .bind (Query.quiet (.walk h.location.fid fid [entry.name])) fun _ => ?_
  refine .attempt_bind (Query.quiet (.getattr fid .all)) fun attr hattr => ?_
  refine (Session.quiet_release fid).bind fun _ => ?_
  cases attr with
  | ok attr => exact .pure _
  | error e => exact .throw (hattr e rfl)

theorem quiet_nextEntry (fid : UInt32) (fuel : Nat) : Quiet (nextEntry fid fuel) := by
  induction fuel with
  | zero => exact .throw (by decide)
  | succ fuel ih =>
    refine .get_bind fun h => ?_
    obtain ⟨position, pending⟩ := skipDots h.position h.pending
    refine .set_bind ?_
    cases pending with
    | cons entry rest =>
      exact .bind (.ofClient (quiet_entryInfo _ entry)) fun info => .set_bind (.pure _)
    | nil =>
      show Quiet (if h.exhausted then _ else _)
      split
      · exact .pure none
      · refine .session_bind fun s => ?_
        let op : Query (List DirEntry) := .readdir fid position s.readdirCeiling
        refine .bind (.ofClient (Query.quiet op)) fun batch => ?_
        cases batch with
        | nil => exact .set_bind (.pure none)
        | cons entry batch => exact .set_bind ih

/-- To list a directory puts nothing out. -/
theorem quiet_readEntry : Quiet readEntry := by
  refine .get_bind fun h => .refuse (by simp [Error.errno]) ?_
  exact quiet_ensureOpen.bind fun fid => quiet_nextEntry fid _

/-- To close a handle puts nothing out, and its failure is one of the two to give a fid
back. -/
theorem quiet_close (h : Handle) : h.close.Quiet := by
  intro s shown
  have clunked (fid : UInt32) : Client.Quiet (Session.clunk fid) := Query.quiet (.clunk fid)
  refine .close_of_clunk (R := fun r _ => Hushed shown r) (fun _ => clunked _ s shown)
    (fun fid _ _ => clunked fid s shown) fun clone t shown' hq => ?_
  obtain ⟨rfl, hclone⟩ := hq
  refine (clunked _ t shown').mono fun own u shown hown => ?_
  cases clone with
  | ok _ => exact hown
  | error e => exact ⟨hown.1, hclone⟩

end Handle

/-! ## Volumes -/

namespace Volume

open Client (Quiet)

theorem quiet_attach (config : Config) : Quiet (attach config) :=
  .bind (Session.Query.quiet (.negotiate config.msize)) fun _ =>
    .bind (Session.Query.quiet (.attach config.uname config.aname)) fun _ => .pure _

theorem quiet_openPath (v : Volume) (path : String) : Quiet (v.openPath path) :=
  (Session.quiet_resolve v.root v.root path).bind fun location =>
    Handle.quiet_establish v.root location (Path.absolute path)

end Volume

end NineP
