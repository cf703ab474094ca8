import NineP.Proofs.Handle.Runs
import NineP.Proofs.Volume.Balance

/-!
# Fids on the way through a path

A path is resolved to one fid that is held, and if that fails then no fid is
left on the way:

* `Client.Always.release`: a fid that is given back is held no more, whatever
  the server says to it;
* `Client.Always.descend`: of the fids on the way only the last is held;
* `Client.Always.resolve`: the same for whole paths.
-/

namespace NineP.Client.Always

variable {held : List UInt32} {idle : Nat} {s : Session} {p : Peer}

/-- A fid is given back, and that never fails. -/
theorem release {fid : UInt32} (h : Balanced (fid :: held) idle s p) :
    Always (Peer.Step .serving) (Session.release fid) s p (Yields fun _ => Balanced held idle) :=
  (clunk h).attempt.bind_of_yields fun _ _ _ hq => .pure ⟨(), rfl, hq.balanced⟩

theorem releaseAny {fid : Option UInt32} (h : Balanced (fid.toList ++ held) idle s p) :
    Always (Peer.Step .serving) (Session.releaseAny fid) s p
      (Yields fun _ => Balanced held idle) := by
  cases fid with
  | none => exact .pure ⟨(), rfl, h⟩
  | some fid => exact release h

/-- A fresh fid is walked to: with a result it is held. -/
theorem descend {root : Qid} {owned : Option UInt32} {current : Location} {names : List String}
    (h : Balanced (owned.toList ++ held) idle s p) (hc : names = [] → owned = some current.fid) :
    Always (Peer.Step .serving) (Session.descend root owned current names) s p
      (Entered (fun l => l.fid :: held) held idle) := by
  induction names generalizing owned current s p with
  | nil =>
    rw [hc rfl] at h
    exact .pure h
  | cons name names ih =>
    refine descend_cons (fun _ => ?_) fun _ => ?_
    · exact (releaseAny h).mono fun _ _ _ ⟨_, hr, hq⟩ => ⟨(), hr, .error hq rfl⟩
    · refine (freshFid h).bind_of_yields fun fid t q hq => ?_
      have hwalk := walk current.fid [name] hq (Nat.le_refl 1)
      refine hwalk.attempt.bind_of_yields fun step u q hstep => ?_
      obtain ⟨hstep, hlen⟩ := hstep
      cases step with
      | error e => exact (releaseAny hstep).bind_of_yields fun _ v q hq => .throw hq
      | ok qids =>
        -- The fid of this step takes the place of the one before it.
        have hswap : (fid :: (owned.toList ++ held)).Perm (owned.toList ++ fid :: held) :=
          List.perm_middle.symm
        have hstep : Balanced (fid :: (owned.toList ++ held)) idle u q := hstep
        refine (releaseAny (hstep.perm hswap)).bind_of_yields fun _ v q hq => ?_
        cases qids with
        | nil => cases hlen [] rfl
        | cons qid qids => exact ih hq fun _ => rfl

theorem resolve {root start : Location} {path : String} (h : Balanced held idle s p) :
    Always (Peer.Step .serving) (Session.resolve root start path) s p
      (Entered (fun l => l.fid :: held) held idle) := by
  refine resolve_of_descend (fun _ => .error h rfl) (fun _ _ => ?_) fun _ hnames => ?_
  · refine (freshFid h).bind_of_yields fun fid t q hq => ?_
    exact entered_bind ((walk _ [] hq (Nat.zero_le 1)).mono fun _ _ _ hq => hq.1)
      fun _ u q hq => .pure hq
  · exact descend (show Balanced ((none : Option UInt32).toList ++ held) idle s p from h)
      fun hnil => absurd hnil hnames

end NineP.Client.Always
