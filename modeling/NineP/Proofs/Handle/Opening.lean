import NineP.Proofs.Handle.Runs
import NineP.Proofs.Session.Conversation
import NineP.Resolve

/-!
# Opening a handle at a prompt server

A handle that is opened for reading is still the same handle: nothing but the
identity of its object, the server's advice and the fid to read from changes
(`Handle.Kept`).

* `Client.Always.returned`: a fid that is given back is clunked, and that never
  fails;
* `HandleClient.Always.opened`: opening a handle fails only if the server has
  reported an error.
-/

namespace NineP

/-- The count of fids has no part in whether a session is settled. -/
theorem Session.Settled.counted {msize : UInt32} {s : Session} {p : Peer} (hs : Settled msize s p)
    (fids : FidSource) : Settled msize { s with fids } p where
  agreed := hs.agreed
  least := hs.least
  stream := hs.stream

namespace Client.Always

/-- A fresh fid is the next one of the count. -/
theorem counted {σ β : Type} {step : σ → Call → Answer → σ → Prop} {s : Session} {p : σ}
    {f : UInt32 → Client β} {Q : Except Error β → Session → σ → Prop}
    (hf : Always step (f s.fids.take.1) { s with fids := s.fids.take.2 } p Q) :
    Always step (Client.freshFid >>= f) s p Q := hf

variable {msize : UInt32} {replies : Replies} {s : Session} {p : Peer}

/-- A fid that is given back is clunked, whatever the server says to it. -/
theorem returned (hs : Session.Settled msize s p) (fid : UInt32) :
    Always (Peer.Step (.prompt msize replies)) (Session.release fid) s p
      (Yields fun _ t q => t = s ∧ ∃ answer, Session.Heard msize p (.tclunk fid) answer q ∧
        replies.allowed (Peer.said p.log) (.tclunk fid) answer) := by
  have hop := Session.Operation.heard replies (.clunk fid) hs
    (Session.Operation.fits_of_short rfl (hs.agreed ▸ hs.least)) rfl
  refine (hop.of_map.attempt).bind_of_yields fun r t q ⟨ht, answer, hheard, hallowed, _, _⟩ => ?_
  exact .pure ⟨(), rfl, ht, answer, hheard, hallowed⟩

end Client.Always

namespace Handle

/-- A handle after it was opened, or not. -/
def Kept (h g : Handle) : Prop :=
  ∃ qid iounit ioFid, g = { h with location := { h.location with qid }, iounit, ioFid }

theorem Kept.refl (h : Handle) : h.Kept h := ⟨h.location.qid, h.iounit, h.ioFid, rfl⟩

/-- What comes of opening a handle. -/
structure Opened (msize : UInt32) (h : Handle) (p : Peer) (r : Except Error UInt32) (g : Handle)
    (t : Session) (q : Peer) : Prop where
  talked : Session.Talked msize p r t q
  kept : h.Kept g
  ioFid : ∀ fid, r = .ok fid → g.ioFid = some fid

end Handle

namespace HandleClient.Always

open Session Handle

variable {msize : UInt32} {replies : Replies} {h : Handle} {s : Session} {p : Peer}

/-- A fresh fid is the next one of the count. -/
theorem counted {σ β : Type} {step : σ → Call → Answer → σ → Prop} {p : σ}
    {f : UInt32 → HandleClient β} {Q : Except Error β → Handle → Session → σ → Prop}
    (hf : Always step (f s.fids.take.1) h { s with fids := s.fids.take.2 } p Q) :
    Always step (HandleClient.ofClient Client.freshFid >>= f) h s p Q := hf

theorem openOn (fid : UInt32) (hs : Settled msize s p) :
    Always (Peer.Step (.prompt msize replies)) (h.openOn fid) h s p (Handle.Opened msize h p) := by
  have hlopen := Operation.talked replies (.lopen fid readOnlyFlags)
    (Session.lopen fid readOnlyFlags) rfl hs (Operation.fits_of_short rfl (hs.agreed ▸ hs.least)) rfl
    fun answer _ ht => by cases answer <;> first | rfl | cases ht
  have hfailed {e : Error} {t : Session} {q : Peer}
      (htalked : Talked msize p (.error e : Except Error UInt32) t q) :
      Handle.Opened msize h p (.error e) h t q := ⟨htalked, .refl h, nofun⟩
  refine openOn_of_lopen hlopen (fun qid iounit t q ⟨ht, htalked, _⟩ => ?_)
    (fun _ e t q ⟨ht, htalked, _⟩ => ?_) fun _ e t q ⟨ht, htalked, _⟩ => ?_
  all_goals subst ht
  · refine ⟨htalked.ok fid, ⟨_, iounit, some fid, rfl⟩, fun fid' hr => ?_⟩
    rw [Except.ok.inj hr]
  · exact hfailed (htalked.error e)
  · refine (Client.Always.returned htalked.settled fid).mono
      fun _ t q' ⟨_, hr, ht, answer, hheard, _⟩ => ⟨(), hr, hfailed ?_⟩
    subst ht
    exact htalked.trans (.returned htalked.settled hheard) fun _ _ => .inl ⟨e, rfl⟩

/-- A handle that is not open yet is opened on its own fid, or on a clone of it.
Clones are made only for directories, so only those have to be granted. -/
theorem opened (hs : Settled msize s p)
    (hclone : h.kind = .directory → ∀ said fid newfid qids,
      replies.allowed said (.twalk fid newfid []) (.rwalk qids) → qids = []) :
    Always (Peer.Step (.prompt msize replies)) ensureOpen h s p (Handle.Opened msize h p) := by
  refine ensureOpen_of_openOn (fun fid hio => ⟨.refl hs, .refl h, fun fid' hr => ?_⟩)
    (fun _ hk => counted ?_) fun _ _ => openOn h.location.fid hs
  · exact Except.ok.inj hr ▸ hio
  · let clone := s.fids.take.1
    have hs' := hs.counted s.fids.take.2
    have hwalk := Operation.talked replies (.walk h.location.fid clone [])
      (Session.walk h.location.fid clone []) rfl hs'
      (Operation.fits_walk_nil (hs'.agreed ▸ hs'.least)) rfl fun answer ha ht => by
        cases answer with
        | rwalk qids =>
          obtain rfl := hclone hk _ _ _ _ ha
          rfl
        | _ => cases ht
    refine ofClient_bind hwalk (fun _ t q ⟨ht, htalked, _⟩ => ?_) fun e t q ⟨ht, htalked, _⟩ => ?_
    · subst ht
      exact (openOn clone htalked.settled).mono fun r g t q hopened =>
        ⟨hopened.talked.after htalked, hopened.kept, hopened.ioFid⟩
    · subst ht
      exact ⟨htalked.error e, .refl h, nofun⟩

end HandleClient.Always

end NineP
