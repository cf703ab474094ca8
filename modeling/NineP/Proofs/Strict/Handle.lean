import NineP.Proofs.Handle.Opening
import NineP.Proofs.Strict.Session

/-!
# Handles within bounds

The identity of what a step of a path leads to is the first of those in the response,
and what is read is copied into the place that is left in the caller's buffer. There
is such an identity, and there is room.

* `Strict.Session.resolve_within`: a step that succeeds has an identity;
* `Strict.Handle.readFrom_within`: what a response holds fits what is left of the
  buffer;
* `Strict.Handle.read_within` and those like it: the operations on a handle are within
  bounds.
-/

namespace NineP.Strict

variable {σ : Type} {step : σ → Call → Answer → σ → Prop} (hsized : Sized step)

/-! ## Paths -/

namespace Session

include hsized

theorem release_within (fid : UInt32) :
    Client.Within step (NineP.Session.release fid) fun _ => True :=
  .bind (.attempt (clunk_within hsized fid)) fun _ _ => .pure trivial

theorem releaseAny_within (fid : Option UInt32) :
    Client.Within step (NineP.Session.releaseAny fid) fun _ => True := by
  cases fid with
  | none => exact .pure trivial
  | some fid => exact release_within hsized fid

theorem descend_within (root : Qid) (owned : Option UInt32) (current : Location)
    (names : List String) :
    Client.Within step (NineP.Session.descend root owned current names) fun _ => True := by
  induction names generalizing owned current with
  | nil => exact .pure trivial
  | cons name names ih =>
    refine .branch (fun _ => ?_) fun _ => .bind freshFid_within fun fid _ => ?_
    · exact .bind (releaseAny_within hsized owned) fun _ _ => .throw
    · refine .bind (.attempt (walk_within hsized current.fid fid [name])) fun outcome houtcome => ?_
      refine .bind (releaseAny_within hsized owned) fun _ _ => ?_
      cases outcome with
      | error e => exact .throw
      | ok qids =>
        obtain ⟨qid, rfl⟩ := List.length_eq_one_iff.1 (houtcome qids rfl)
        exact ih (some fid) ⟨fid, qid⟩

theorem resolve_within (root start : Location) (path : String) :
    Client.Within step (NineP.Session.resolve root start path) fun _ => True := by
  refine .lift_bind fun plan _ => ?_
  refine .branch (fun _ => .bind freshFid_within fun fid _ => ?_) fun _ => ?_
  · exact .bind (walk_within hsized _ _ _) fun _ _ => .pure trivial
  · exact descend_within hsized _ _ _ _

end Session

/-! ## Handles -/

namespace Handle

theorem setPosition_within (position : UInt64) :
    HandleClient.Within step (NineP.Handle.setPosition position) fun _ => True := by
  refine .get_bind fun h => .branch (fun _ => ?_) fun _ => .set_last trivial
  exact .refuse fun _ => .set_last trivial

include hsized

theorem openOn_within (h : NineP.Handle) (fid : UInt32) :
    HandleClient.Within step (h.openOn fid) fun _ => True := by
  have hlopen := Client.Agrees.attempt
    (Session.lopen_within hsized fid NineP.Handle.readOnlyFlags)
  refine .bind (.ofClient hlopen) fun outcome _ => ?_
  cases outcome with
  | ok found => exact .set_bind (.pure trivial)
  | error e =>
    have hrelease := Session.release_within hsized fid
    exact .branch (fun _ => .bind (.ofClient hrelease) fun _ _ => .throw) fun _ => .throw

theorem ensureOpen_within : HandleClient.Within step NineP.Handle.ensureOpen fun _ => True := by
  refine .get_bind fun h => ?_
  cases h.ioFid with
  | some fid => exact .pure trivial
  | none =>
    refine .branch (fun _ => ?_) fun _ => ?_
    · refine .bind (.ofClient Session.freshFid_within) fun clone _ => ?_
      refine .bind (.ofClient (Session.walk_within hsized _ _ _)) fun _ _ => ?_
      rw [pure_bind, pure_bind]
      exact openOn_within hsized h clone
    · rw [pure_bind, pure_bind]
      exact openOn_within hsized h h.location.fid

theorem establish_within (root location : Location) (path : String) :
    Client.Within step (NineP.Handle.establish root location path) fun _ => True := by
  refine .branch (fun _ => ?_) fun _ => .pure trivial
  have hopen := Client.Agrees.runOn (ensureOpen_within hsized)
    (NineP.Handle.fresh root location path)
  refine .bind hopen fun (outcome, h) _ => ?_
  cases outcome with
  | ok fid => exact .pure trivial
  | error e => exact .bind (Session.release_within hsized _) fun _ _ => .throw

theorem openPath_within (h : NineP.Handle) (path : String) :
    Client.Within step (h.openPath path) fun _ => True := by
  unfold Client.Within NineP.Handle.openPath
  refine .refuse fun _ => ?_
  refine .bind (Session.resolve_within hsized _ _ _) fun location _ => ?_
  exact establish_within hsized _ _ _

/-- What is still wanted is the place that is left in the buffer. -/
theorem readFrom_within (fid : UInt32) (start : UInt64) (fuel wanted : Nat) (acc : Bytes) :
    HandleClient.Within step (NineP.Handle.readFrom fid start fuel wanted acc) fun _ => True := by
  induction fuel generalizing wanted acc with
  | zero => exact .pure trivial
  | succ fuel ih =>
    cases wanted with
    | zero => exact .pure trivial
    | succ wanted =>
      refine .get_bind fun handle => .session_bind fun s hs => ?_
      refine .relies (Session.readOverhead_le hs) ?_
      have hcount : (UInt32.ofNat (min s.readCeiling.toNat (wanted + 1))).toNat ≤ wanted + 1 := by
        rw [UInt32.toNat_ofNat_of_lt'
          (Nat.lt_of_le_of_lt (Nat.min_le_left ..) s.readCeiling.toNat_lt)]
        exact Nat.min_le_right ..
      have hread := Client.Agrees.attempt (Session.read_within hsized fid handle.position
        (UInt32.ofNat (min s.readCeiling.toNat (wanted + 1))))
      refine .bind (.ofClient hread) fun outcome houtcome => ?_
      cases outcome with
      | error e => exact .set_bind .throw
      | ok data =>
        cases data with
        | nil => exact .pure trivial
        | cons b bs =>
          have hlen : (b :: bs).length ≤ wanted + 1 := Nat.le_trans (houtcome _ rfl) hcount
          exact .relies hlen (.set_bind (ih _ _))

theorem readData_within (wanted : Nat) :
    HandleClient.Within step (NineP.Handle.readData wanted) fun _ => True := by
  refine .get_bind fun h => .refuse fun _ => ?_
  refine .bind (ensureOpen_within hsized) fun fid _ => .get_bind fun h => ?_
  exact readFrom_within hsized fid h.position wanted wanted []

theorem entryInfo_within (h : NineP.Handle) (entry : DirEntry) :
    Client.Within step (NineP.Handle.entryInfo h entry) fun _ => True := by
  refine .bind Session.freshFid_within fun fid _ => ?_
  refine .bind (Session.walk_within hsized _ _ _) fun _ _ => ?_
  refine .bind (.attempt (Session.getattr_within hsized _ _)) fun attr _ => ?_
  refine .bind (Session.release_within hsized fid) fun _ _ => ?_
  cases attr with
  | ok attr => exact .pure trivial
  | error e => exact .throw

theorem nextEntry_within (fid : UInt32) (fuel : Nat) :
    HandleClient.Within step (NineP.Handle.nextEntry fid fuel) fun _ => True := by
  induction fuel with
  | zero => exact .throw
  | succ fuel ih =>
    refine .get_bind fun h => .set_bind ?_
    cases (NineP.Handle.skipDots h.position h.pending).2 with
    | cons entry rest =>
      refine .bind (.ofClient (entryInfo_within hsized _ entry)) fun info _ => ?_
      exact .set_bind (.pure trivial)
    | nil =>
      refine .branch (fun _ => .pure trivial) fun _ => .session_bind fun s hs => ?_
      refine .relies (Session.readOverhead_le hs) ?_
      have hreaddir := Session.readdir_within hsized fid
        (NineP.Handle.skipDots h.position h.pending).1 s.readdirCeiling
      refine .bind (.ofClient hreaddir) fun entries _ => ?_
      cases entries with
      | nil => exact .set_bind (.pure trivial)
      | cons entry rest => exact .set_bind ih

theorem readEntry_within : HandleClient.Within step NineP.Handle.readEntry fun _ => True := by
  refine .get_bind fun h => .refuse fun _ => .bind (ensureOpen_within hsized) fun fid _ => ?_
  exact nextEntry_within hsized fid NineP.Handle.patience

theorem linkTarget_within : HandleClient.Within step NineP.Handle.linkTarget fun _ => True := by
  refine .get_bind fun h => .refuse fun _ => ?_
  cases h.target with
  | some target => exact .pure trivial
  | none =>
    refine .bind (.ofClient (Session.readlink_within hsized _)) fun target _ => ?_
    exact .set_bind (.pure trivial)

theorem readLink_within (room : Nat) :
    HandleClient.Within step (NineP.Handle.readLink room) fun _ => True := by
  refine .bind (linkTarget_within hsized) fun target _ => .refuse fun hroom => ?_
  exact .relies (Nat.not_lt.1 hroom) (.pure trivial)

theorem read_within (room : Nat) :
    HandleClient.Within step (NineP.Handle.read room) fun _ => True := by
  refine .get_bind fun h => ?_
  cases h.kind with
  | regular => exact .map (readData_within hsized room)
  | directory => exact .map (readEntry_within hsized)
  | symlink => exact .map (readLink_within hsized room)

theorem getInfo_within : HandleClient.Within step NineP.Handle.getInfo fun _ => True := by
  refine .get_bind fun h => ?_
  refine .bind (.ofClient (Session.getattr_within hsized _ _)) fun attr _ => ?_
  exact .set_bind (.pure trivial)

theorem fsInfo_within (h : NineP.Handle) : Client.Within step h.fsInfo fun _ => True :=
  .bind (Session.statfs_within hsized _) fun _ _ => .pure trivial

theorem close_within (h : NineP.Handle) : Client.Within step h.close fun _ => True := by
  have hclunk (fid : UInt32) := Client.Agrees.attempt (Session.clunk_within hsized fid)
  have hown : Client.Within step (do
      liftM (← NineP.Client.attempt (NineP.Session.clunk h.location.fid))) fun _ => True :=
    .bind (hclunk h.location.fid) fun _ _ => .lift fun _ _ => trivial
  unfold Client.Within NineP.Handle.close
  cases h.ioFid with
  | none =>
    refine .bind (.pure (R := (· = .ok ())) rfl) ?_
    rintro _ rfl
    exact hown
  | some fid =>
    refine .branch (fun _ => .bind (.pure (R := (· = .ok ())) rfl) ?_) fun _ => ?_
    · rintro _ rfl
      exact hown
    · refine .bind (hclunk fid) fun clone _ => ?_
      cases clone with
      | error e => exact .bind (hclunk h.location.fid) fun _ _ => .throw
      | ok _ => exact hown

end Handle

end NineP.Strict
