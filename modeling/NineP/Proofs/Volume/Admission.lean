import NineP.Proofs.Session.Replied
import NineP.Volume

/-!
# Opening a path at a prompt server

Whatever a prompt server refuses on the way, a volume that is mounted and a handle that is
opened leave the session settled, so that what is said next is understood:

* `Replies.Agreeing`: the message size that a server settles on is the one that it honours;
* `Volume.settled_attach`: mounting settles the session;
* `Volume.settles_openPath`: opening a path keeps it so, and the handle is one that nothing
  has been read from.
-/

namespace NineP

/-- The message size that is agreed on is `msize`. -/
def Replies.Agreeing (msize : UInt32) (replies : Replies) : Prop :=
  ∀ said proposal protocol most version,
    replies.allowed said (.tversion proposal protocol) (.rversion most version) →
    min most proposal = msize

variable {msize : UInt32} {replies : Replies}

namespace Session

open Client (Settles Fails)

theorem settles_walk (fid newfid : UInt32) {names : List String} (hn : names.length ≤ 1) :
    Settles msize replies (walk fid newfid names) fun _ => True :=
  have hwalk : Settles msize replies (Query.walk fid newfid names).perform fun _ => True :=
    .query (fun _ => Nat.le_trans hn (by decide : 1 ≤ 65535)) nofun nofun
  hwalk

theorem settles_releaseAny (owned : Option UInt32) :
    Settles msize replies (releaseAny owned) fun _ => True := by
  cases owned with
  | none => exact .pure trivial
  | some fid => exact .release fid

theorem settles_descend (root : Qid) (owned : Option UInt32) (current : Location)
    (names : List String) :
    Settles msize replies (descend root owned current names) fun _ => True := by
  induction names generalizing owned current with
  | nil => exact .pure trivial
  | cons name names ih =>
    rw [descend]
    split
    · exact .fails (.bind _ fun _ => .throw _)
    · refine .bind .freshFid fun fid _ => ?_
      refine .attempt_bind (settles_walk current.fid fid (Nat.le_refl 1)) (fun qids _ => ?_)
        fun e => .bind _ fun _ => .throw e
      refine (settles_releaseAny owned).bind fun _ _ => ?_
      cases qids with
      | nil => exact .fails (.throw _)
      | cons qid qids => exact ih _ _

theorem settles_resolve (root start : Location) (path : String) :
    Settles msize replies (resolve root start path) fun _ => True := by
  show Settles _ _ (liftM (Path.plan path _) >>= fun plan => _) _
  cases hplan : Path.plan path (start.fid == root.fid || start.qid.sameObject root.qid) with
  | error e => exact .fails (.throw e)
  | ok plan =>
    show Settles _ _ (if plan.names.isEmpty then _ else _) _
    split
    · refine .bind .freshFid fun fid _ => ?_
      exact .bind (settles_walk _ fid (Nat.zero_le 1)) fun _ _ => .pure trivial
    · exact settles_descend _ _ _ _

end Session

namespace Handle

open Session (Settled)
open Client (Settles Fails)

/-- Nothing has been read from a handle. -/
structure Untouched (h : Handle) : Prop where
  position : h.position = 0
  pending : h.pending = []
  exhausted : h.exhausted = false

theorem settles_establish (root location : Location) (path : String) :
    Settles msize replies (establish root location path) Untouched := by
  intro s p hs
  let h := fresh root location path
  have hfresh : h.Untouched := ⟨rfl, rfl, rfl⟩
  refine .establish_of_ensureOpen (R := Opened msize h p)
    (fun hk => .opened hs fun hd => by cases hk.symm.trans hd) (fun _ g t q hopened g' hr => ?_)
    (fun e g t q hopened => ?_) fun _ g' hr => ?_
  · obtain rfl := Except.ok.inj hr
    obtain ⟨qid, iounit, ioFid, rfl⟩ := hopened.kept
    exact ⟨⟨hfresh.position, hfresh.pending, hfresh.exhausted⟩, hopened.talked.settled⟩
  · exact (Client.Always.returned hopened.talked.settled g.location.fid).mono
      fun _ _ _ ⟨_, hok, _⟩ => ⟨(), hok, nofun⟩
  · obtain rfl := Except.ok.inj hr
    exact ⟨hfresh, hs⟩

end Handle

namespace Volume

open Session (Settled Query)
open Client (Settles)

/-- Whatever is refused on the way, the handle that is opened is one that nothing has been
read from. -/
theorem settles_openPath (v : Volume) (path : String) :
    Settles msize replies (v.openPath path) Handle.Untouched :=
  (Session.settles_resolve v.root v.root path).bind fun location _ =>
    Handle.settles_establish v.root location (Path.absolute path)

/-- A session is settled once its volume is mounted. -/
theorem settled_attach (config : Config) (ha : replies.Agreeing msize) :
    (attach config).Always (Peer.Step (.prompt msize replies)) { timeout := config.timeout } {}
      fun r t q => ∀ a, r = .ok a → Settled msize t q := by
  let op : Query UInt32 := .negotiate config.msize
  have hnegotiate : op.perform.Always (Peer.Step (.prompt msize replies))
      { timeout := config.timeout } {} fun r t q => ∀ a, r = .ok a → Settled msize t q := by
    refine (op.always_replied rfl trivial fun h => by cases h).mono fun r t q h a hr => ?_
    obtain ⟨ht, hok⟩ := h
    obtain ⟨answer, ⟨request, hsend⟩, hheard, hallowed, hreading⟩ := hok a hr
    have hproposal : minMsize ≤ config.msize := by
      have hvetted := (Query.sends_eq_ok.1 hsend).1
      rw [Query.vetted] at hvetted
      split at hvetted
      · cases hvetted
      · rename_i hlt
        exact UInt32.not_lt.1 hlt
    cases answer with
    | rversion most version =>
      have hreading : (if version ≠ protocolVersion then _ else if most < minMsize then _ else
        .ok (min most config.msize) : Except Error UInt32) = .ok a := Option.some.inj hreading
      split at hreading
      · cases hreading
      split at hreading
      · cases hreading
      · rename_i hleast
        obtain rfl := Except.ok.inj hreading
        have hagreed : min most config.msize = msize := ha _ _ _ _ _ hallowed
        refine ⟨?_, ?_, hheard.stream⟩
        · rw [ht, hr]
          exact hagreed
        · rw [← hagreed]
          show minMsize ≤ if most ≤ config.msize then most else config.msize
          split
          · exact UInt32.not_lt.1 hleast
          · exact hproposal
    | _ => cases hreading
  refine hnegotiate.bind (fun agreed t q hsettled => ?_) fun e t q _ a ha => by cases ha
  have hattach : Settles msize replies (Query.attach config.uname config.aname).perform _ :=
    Settles.query (fun _ => trivial) (fun h => by cases h) fun h => by cases h
  have hroot : Settles msize replies (do
      let a ← Session.attach config.uname config.aname
      pure { fid := a.1, qid := a.2 }) fun _ : Location => True :=
    hattach.bind fun _ _ => .pure trivial
  exact (hroot t q (hsettled agreed rfl)).mono fun _ _ _ h a ha => (h a ha).2

end Volume

end NineP
