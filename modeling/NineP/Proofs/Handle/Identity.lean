import NineP.Proofs.Handle.Opening

/-!
# What a handle keeps

Whatever a handle is used for, whatever the world answers and whether it succeeds or
fails, the handle keeps its root, its own fid, its path and its kind
(`Handle.Identity`):

* `HandleClient.Steady`: operations that keep the identity of a handle, with a rule for
  each way to put them together;
* `Handle.Operation.steady`: every operation on a handle is one of them;
* `Handle.Used.identity`: so a handle is the same after any number of them, whatever is
  done in the session in between.
-/

namespace NineP

/-- What tells a handle from others. -/
structure Handle.Identity where
  root : Location
  fid : UInt32
  path : String
  kind : FileKind

def Handle.identity (h : Handle) : Identity where
  root := h.root
  fid := h.location.fid
  path := h.path
  kind := h.kind

namespace HandleClient

variable {α β : Type} {i : Handle.Identity}

/-- An operation that leaves every handle of this identity with it, in every world. -/
def Steady (i : Handle.Identity) (x : HandleClient α) : Prop :=
  ∀ (σ : Type) (step : σ → Call → Answer → σ → Prop) (h : Handle) (s : Session) (p : σ),
    h.identity = i → x.Always step h s p fun _ g _ _ => g.identity = i

namespace Steady

variable {x : HandleClient α}

theorem pure (a : α) : Steady i (Pure.pure a) := fun _ _ _ _ _ hi => .pure hi

theorem throw (e : Error) : Steady i (throw e : HandleClient α) :=
  fun _ _ _ _ _ hi => .throw hi

theorem bind {f : α → HandleClient β} (hx : x.Steady i) (hf : ∀ a, (f a).Steady i) :
    (x >>= f).Steady i :=
  fun _ step h s p hi => (hx _ step h s p hi).bind (fun a g t q hg => hf a _ step g t q hg)
    fun _ _ _ _ hg => hg

theorem map {f : α → β} (hx : x.Steady i) : (f <$> x).Steady i :=
  fun _ step h s p hi => .map (hx _ step h s p hi)

theorem relies {c : Prop} [Decidable c] (hx : x.Steady i) : Steady i (relying c x) := hx

theorem get_bind {f : Handle → HandleClient β} (hf : ∀ h, h.identity = i → (f h).Steady i) :
    Steady i (get >>= f) :=
  fun _ step h s p hi => .get_bind (hf h hi _ step h s p hi)

theorem set_bind {g : Handle} {f : PUnit → HandleClient β} (hg : g.identity = i)
    (hf : (f ⟨⟩).Steady i) : Steady i (set g >>= f) :=
  fun _ step _ s p _ => .set_bind (hf _ step g s p hg)

theorem set {g : Handle} (hg : g.identity = i) : Steady i (set g) :=
  fun _ _ _ _ _ _ => Dialogue.Always.done hg

theorem refuse {c : Prop} [Decidable c] {e : Error} {f : PUnit → HandleClient α}
    (hf : (f ()).Steady i) : Steady i (if c then do f (← MonadExcept.throw e) else f ()) :=
  fun _ step h s p hi => .refuse (fun _ => hi) fun _ => hf _ step h s p hi

/-- The session has no handle to change. -/
theorem ofClient (x : Client α) : Steady i (ofClient x) :=
  fun _ _ _ _ _ hi => .ofClient fun _ _ _ => hi

end Steady

end HandleClient

namespace Handle

open HandleClient (Steady)

variable {h : Handle} {i : Identity}

theorem steady_openOn (hi : h.identity = i) (fid : UInt32) : Steady i (h.openOn fid) := by
  refine .bind (.ofClient _) fun opened => ?_
  cases opened with
  | ok opened => exact .set_bind hi (.pure fid)
  | error e =>
    show Steady i (if fid ≠ h.location.fid then _ else _)
    split
    · exact .bind (.ofClient _) fun _ => .throw e
    · exact .throw e

theorem steady_ensureOpen : Steady i ensureOpen := by
  refine .get_bind fun h hi => ?_
  cases h.ioFid with
  | some fid => exact .pure fid
  | none =>
    show Steady i (if h.kind = .directory then _ else _)
    split
    · refine .bind (.ofClient _) fun clone => .bind (.ofClient _) fun _ => ?_
      rw [pure_bind]
      exact steady_openOn hi clone
    · rw [pure_bind]
      exact steady_openOn hi h.location.fid

theorem steady_readFrom (fid : UInt32) (start : UInt64) (fuel wanted : Nat) (acc : Bytes) :
    Steady i (readFrom fid start fuel wanted acc) := by
  induction fuel generalizing wanted acc with
  | zero => exact .pure _
  | succ fuel ih =>
    cases wanted with
    | zero => exact .pure _
    | succ wanted =>
      refine .get_bind fun h hi => .bind (.ofClient _) fun s => .bind (.ofClient _) fun data => ?_
      rcases data with e | _ | ⟨byte, bytes⟩
      · exact .set_bind hi (.throw e)
      · exact .pure _
      · exact .relies (.set_bind hi (ih _ _))

theorem steady_readData (wanted : Nat) : Steady i (readData wanted) :=
  .get_bind fun _ _ => .refuse (steady_ensureOpen.bind fun _ => .get_bind fun _ _ =>
    steady_readFrom _ _ _ _ _)

theorem steady_nextEntry (fid : UInt32) (fuel : Nat) : Steady i (nextEntry fid fuel) := by
  induction fuel with
  | zero => exact .throw _
  | succ fuel ih =>
    refine .get_bind fun h hi => ?_
    obtain ⟨position, pending⟩ := skipDots h.position h.pending
    refine .set_bind hi ?_
    cases pending with
    | cons entry rest => exact .bind (.ofClient _) fun info => .set_bind hi (.pure _)
    | nil =>
      show Steady i (if h.exhausted then _ else _)
      split
      · exact .pure none
      · refine .bind (.ofClient _) fun s => .bind (.ofClient _) fun batch => ?_
        cases batch with
        | nil => exact .set_bind hi (.pure none)
        | cons entry batch => exact .set_bind hi ih

theorem steady_readEntry : Steady i readEntry :=
  .get_bind fun _ _ => .refuse (steady_ensureOpen.bind fun _ => steady_nextEntry _ _)

theorem steady_linkTarget : Steady i linkTarget := by
  refine .get_bind fun h hi => .refuse ?_
  cases h.target with
  | some target => exact .pure target
  | none => exact .bind (.ofClient _) fun target => .set_bind hi (.pure target)

theorem steady_readLink (room : Nat) : Steady i (readLink room) :=
  steady_linkTarget.bind fun _ => .refuse (.pure _)

/-- What may be asked of a handle and may change it. -/
inductive Operation : {α : Type} → HandleClient α → Prop where
  | read (room : Nat) : Operation (read room)
  | readData (wanted : Nat) : Operation (readData wanted)
  | readEntry : Operation readEntry
  | readLink (room : Nat) : Operation (readLink room)
  | linkTarget : Operation linkTarget
  | getInfo : Operation getInfo
  | setPosition (position : UInt64) : Operation (setPosition position)
  | write (bytes : Nat) : Operation (write bytes)
  | flush : Operation flush
  | delete : Operation delete

theorem Operation.steady {α : Type} {x : HandleClient α} (hx : Operation x) : x.Steady i := by
  cases hx with
  | read room =>
    refine .get_bind fun h _ => ?_
    cases h.kind with
    | regular => exact (steady_readData room).map
    | directory => exact steady_readEntry.map
    | symlink => exact (steady_readLink room).map
  | readData wanted => exact steady_readData wanted
  | readEntry => exact steady_readEntry
  | readLink room => exact steady_readLink room
  | linkTarget => exact steady_linkTarget
  | getInfo => exact .get_bind fun h hi => .bind (.ofClient _) fun attr => .set_bind hi (.pure _)
  | setPosition position =>
    refine .get_bind fun h hi => ?_
    show Steady i (if h.kind = .directory then _ else _)
    split
    · exact .refuse (.set hi)
    · exact .set hi
  | write bytes => exact .pure bytes
  | flush => exact .pure ()
  | delete => exact .pure ()

/-- A handle after any number of operations on it. Each of them may begin in any session
and in any state of the world, so that anything may be done with other handles in
between. -/
inductive Used {σ : Type} (step : σ → Call → Answer → σ → Prop) (h : Handle) : Handle → Prop where
  | new : Used step h h
  | operated {α : Type} {x : HandleClient α} {f g : Handle} {s t : Session} {p q : σ}
    {r : Except Error α} : Used step h f → Operation x → x.Runs step f s p r g t q →
    Used step h g

theorem Used.identity {σ : Type} {step : σ → Call → Answer → σ → Prop} {h g : Handle}
    (hg : h.Used step g) : g.identity = h.identity := by
  induction hg with
  | new => rfl
  | operated _ hx hr ih => exact (hx.steady _ _ _ _ _ ih).of_runs hr

/-- A handle that is taken on a fid has the identity that it was made with. -/
theorem identity_establish {σ : Type} {step : σ → Call → Answer → σ → Prop}
    {root location : Location} {path : String} {s : Session} {p : σ} :
    (establish root location path).Always step s p fun r _ _ =>
      ∀ h, r = .ok h → h.identity = (fresh root location path).identity := by
  rw [establish]
  split
  · have hopen := steady_ensureOpen _ step (fresh root location path) s p rfl
    refine (Client.Always.runOn hopen).bind_of_yields fun (r, g) t q hg => ?_
    cases r with
    | ok fid => exact .pure fun h hh => Except.ok.inj hh ▸ hg
    | error e =>
      have hreleased : Client.Always step (Session.release g.location.fid) t q
          fun _ _ _ => True := fun _ _ _ => trivial
      exact hreleased.bind (fun _ _ _ _ => .throw fun _ hh => by cases hh)
        fun _ _ _ _ _ hh => by cases hh
  · exact .pure fun h hh => Except.ok.inj hh ▸ rfl

end Handle

end NineP
