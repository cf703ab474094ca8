import Mathlib.Algebra.Order.BigOperators.Group.List
import Mathlib.Algebra.Order.Group.Nat
import NineP.Proofs.Handle.Entries
import NineP.Proofs.Handle.Opening

/-!
# Listing a directory

The server gives the entries of a directory in batches, from a cookie on, and the
handle gives them out one at a time. Every entry costs requests of its own, any of
which may fail:

* `Replies.directory`: what a server may answer to listings of a directory;
* `HandleClient.Always.nextEntry_directory`: an entry is passed when it is given out
  or passed over, and not before;
* `HandleClient.Always.readEntry_exhausted`: after the end nothing more is asked for;
* `Handle.Listing.accounted`: what has been given out is what has been passed;
* `Handle.listing_exactly_once`: so every entry is given out once, in order.
-/

namespace NineP

/-- The replies of a server that a directory of these entries is listed from: some
of the entries that follow the cookie, as few as one and none only at the end. A
walk is granted in full. -/
def Replies.directory (entries : List DirEntry) : Replies := .orError fun request reply =>
  (∀ fid cookie count, request = .treaddir fid cookie count →
    ∃ batch, reply = .rreaddir batch ∧ batch <+: DirEntry.following cookie entries ∧
      (batch = [] → DirEntry.following cookie entries = [])) ∧
  ∀ fid newfid names, request = .twalk fid newfid names →
    ∃ qids, reply = .rwalk qids ∧ qids.length = names.length

open Session

variable {msize : UInt32} {entries passed : List DirEntry} {h : Handle} {s : Session} {p : Peer}

/-! ## Requests -/

/-- Names that have come in a message can be walked to. -/
theorem Session.Heard.names_fit {request : Body} {batch : List DirEntry} {q : Peer}
    (h : Heard msize p request (.rreaddir batch) q) :
    ∀ e ∈ batch, e.name.utf8ByteSize ≤ Codec.maxTextSize ∧
      e.name.utf8ByteSize ≤ msize.toNat - 19 := by
  refine fun e he => ⟨h.texts e.name (List.mem_map_of_mem he), ?_⟩
  have hsum : e.wireSize ≤ (batch.map DirEntry.wireSize).sum :=
    List.single_le_sum (fun _ _ => Nat.zero_le _) _ (List.mem_map_of_mem he)
  have hsize : 7 + (4 + (batch.map DirEntry.wireSize).sum) ≤ msize.toNat := h.size
  have hwire : e.wireSize = 22 + (2 + e.name.utf8ByteSize) := rfl
  omega

namespace Client.Always

/-- What the server gives for a listing is a batch of the entries behind the
cookie, with names that can be walked to. -/
theorem readdir_directory (hs : Settled msize s p) (fid : UInt32) (cookie : UInt64)
    (count : UInt32) :
    Always (Peer.Step (.prompt msize (.directory entries))) (Session.readdir fid cookie count) s p
      fun r t q => t = s ∧ Talked msize p r s q ∧ ∀ batch, r = .ok batch →
        batch <+: DirEntry.following cookie entries ∧
        (batch = [] → DirEntry.following cookie entries = []) ∧
        ∀ e ∈ batch, e.name.utf8ByteSize ≤ Codec.maxTextSize ∧
          e.name.utf8ByteSize ≤ msize.toNat - 19 := by
  refine (Operation.talked _ (.readdir fid cookie count) (Session.readdir fid cookie count) rfl hs
    (Operation.fits_of_short rfl (hs.agreed ▸ hs.least)) rfl fun answer ha ht => ?_).mono
    fun r t q ⟨ht, htalked, hok⟩ => ⟨ht, htalked, fun batch hr => ?_⟩
  · cases answer with
    | rreaddir batch => rfl
    | _ => cases ht
  · obtain ⟨hheard, ha⟩ := hok batch hr
    rcases ha with ⟨ecode, he⟩ | ⟨hlisting, -⟩
    · cases he
    · obtain ⟨batch', hb, hfront, hnone⟩ := hlisting fid cookie _ rfl
      obtain rfl := Body.rreaddir.inj hb
      exact ⟨hfront, hnone, hheard.names_fit⟩

/-- The attributes of an entry come with its name, or the server has reported an
error. -/
theorem entryInfo_directory {entry : DirEntry} (hs : Settled msize s p)
    (hn : entry.name.utf8ByteSize ≤ Codec.maxTextSize ∧
      entry.name.utf8ByteSize ≤ msize.toNat - 19) :
    Always (Peer.Step (.prompt msize (.directory entries))) (Handle.entryInfo h entry) s p
      fun r t q => Talked msize p r t q ∧ ∀ info, r = .ok info → info.name = entry.name := by
  let fid := s.fids.take.1
  refine counted ?_
  have hs' := hs.counted s.fids.take.2
  have hwalk := Operation.talked (.directory entries) (.walk h.location.fid fid [entry.name])
    (Session.walk h.location.fid fid [entry.name]) rfl hs'
    (Operation.fits_walk_one hn.1 (hs'.agreed ▸ hn.2) (hs'.agreed ▸ hs'.least)) rfl
    fun answer ha ht => by
      rcases ha with ⟨ecode, rfl⟩ | ⟨-, hgrant⟩
      · cases ht
      · obtain ⟨qids, rfl, hlen⟩ := hgrant _ _ _ rfl
        show (if _ then _ else if _ then _ else _) = _
        rw [if_neg (Nat.not_lt.2 (Nat.le_of_eq hlen)),
          if_neg (Nat.not_lt.2 (Nat.le_of_eq hlen.symm))]
  refine hwalk.bind (fun _ t q ⟨ht, hwalked, _⟩ => ?_) fun e t q ⟨ht, hwalked, _⟩ => ?_
  · subst ht
    have hgetattr := Operation.talked (.directory entries) (.getattr fid .all)
      (Session.getattr fid .all) rfl hwalked.settled
      (Operation.fits_of_short rfl (hwalked.settled.agreed ▸ hs.least)) rfl
      fun answer _ ht => by cases answer <;> first | rfl | cases ht
    refine hgetattr.attempt.bind_of_yields fun attr t q' ⟨ht, hfetched, _⟩ => ?_
    subst ht
    refine (returned hfetched.settled fid).bind_of_yields fun _ t q'' ⟨ht, answer, hheard, _⟩ => ?_
    subst ht
    have hreturned := Talked.returned hfetched.settled hheard
    cases attr with
    | ok attr =>
      refine .pure ⟨(hreturned.after (hfetched.after hwalked)).ok _, fun info hr => ?_⟩
      obtain rfl := Except.ok.inj hr
      rfl
    | error e =>
      exact .throw ⟨(hfetched.after hwalked).trans hreturned fun _ _ => .inl ⟨e, rfl⟩,
        fun _ hr => by cases hr⟩
  · subst ht
    exact ⟨hwalked.error e, fun _ hr => by cases hr⟩

end Client.Always

namespace Handle

/-- What comes of asking for the next entry: one more is passed that is shown, and
given out; or none is, and if that is no failure then all have been passed. -/
structure Advanced (msize : UInt32) (entries passed : List DirEntry) (h : Handle) (p : Peer)
    (r : Except Error (Option FileInfo)) (g : Handle) (t : Session) (q : Peer) : Prop where
  talked : Talked msize p r t q
  ioFid : g.ioFid = h.ioFid
  listed : ∃ passed', Listed msize entries passed' g ∧
    DirEntry.shown passed' = DirEntry.shown passed ++ r.toOption.join.toList.map FileInfo.name
  ended : r = .ok none → g.pending = [] ∧ g.exhausted = true

/-- What was said before belongs to it as well, and entries that are not shown do
not count. -/
theorem Advanced.after {passed' : List DirEntry} {g h' : Handle} {t : Session} {q q' : Peer}
    {r : Except Error (Option FileInfo)} {a : α} (ha : Advanced msize entries passed' h' q r g t q')
    (ht : Talked msize p (.ok a : Except Error α) s q) (hio : h'.ioFid = h.ioFid)
    (hshown : DirEntry.shown passed' = DirEntry.shown passed) :
    Advanced msize entries passed h p r g t q' where
  talked := ha.talked.after ht
  ioFid := ha.ioFid.trans hio
  listed := hshown ▸ ha.listed
  ended := ha.ended

end Handle

namespace HandleClient.Always

open Handle

/-- An entry is passed when it is given out or passed over, and not before. Each
batch has an entry at least, so that there are not more batches than entries. -/
theorem nextEntry_directory (fid : UInt32) {fuel : Nat} (hs : Settled msize s p)
    (hl : Listed msize entries passed h) (hdistinct : (entries.map DirEntry.cookie).Nodup)
    (hzero : ∀ e ∈ entries, e.cookie ≠ 0)
    (hfuel : entries.length < fuel + (passed.length + h.pending.length)) :
    Always (Peer.Step (.prompt msize (.directory entries))) (nextEntry fid fuel) h s p
      (Advanced msize entries passed h p) := by
  induction fuel generalizing h s p passed with
  | zero =>
    obtain ⟨unseen, hentries, -⟩ := hl.split
    have hlen := congrArg List.length hentries
    rw [List.length_append, List.length_append] at hlen
    omega
  | succ fuel ih =>
    refine get_bind ?_
    generalize hskipped : Handle.skipDots h.position h.pending = skipped
    obtain ⟨position, pending⟩ := skipped
    obtain ⟨dots, hskip, hshown, hcount, hhead⟩ := hl.skipDots hskipped
    refine set_bind ?_
    cases pending with
    | cons e rest =>
      have hdot := hhead e rest rfl
      refine ofClient_bind (Client.Always.entryInfo_directory hs (hskip.fits e List.mem_cons_self))
        (fun info t q ⟨htalked, hname⟩ => ?_) fun err t q ⟨htalked, _⟩ => ?_
      · refine set_bind (pure ⟨htalked.ok _, rfl, ⟨_, hskip.give rfl, ?_⟩, fun hr => by cases hr⟩)
        rw [DirEntry.shown_append, hshown, DirEntry.shown_singleton hdot, ← hname info rfl]
        rfl
      · refine ⟨htalked.error err, rfl, ⟨_, hskip, ?_⟩, fun hr => by cases hr⟩
        exact hshown.trans (List.append_nil _).symm
    | nil =>
      show Always _ (if h.exhausted then _ else _) _ _ _ _
      by_cases he : h.exhausted = true
      · rw [if_pos he]
        exact pure ⟨.refl hs, rfl, ⟨_, hskip, hshown.trans (List.append_nil _).symm⟩,
          fun _ => ⟨rfl, he⟩⟩
      · rw [if_neg he]
        have hmore : h.exhausted = false := Bool.eq_false_iff.2 he
        have hall := hskip.following rfl hdistinct hzero
        refine session_bind (ofClient_bind (Client.Always.readdir_directory hs fid position
          s.readdirCeiling) (fun batch t q ⟨ht, htalked, hbatch⟩ => ?_)
          fun err t q ⟨ht, htalked, _⟩ => ?_)
        · subst ht
          obtain ⟨hfront, hnone, hfits⟩ := hbatch batch rfl
          cases batch with
          | nil =>
            have hdone := hskip.finish rfl hall (hnone rfl)
            exact set_bind (pure ⟨htalked.ok _, rfl,
              ⟨_, hdone, hshown.trans (List.append_nil _).symm⟩, fun _ => ⟨rfl, rfl⟩⟩)
          | cons e batch =>
            have hfetched := hskip.fetch hall hfront hmore hfits
            refine set_bind ((ih htalked.settled hfetched ?_).mono fun r g t q' hadvanced => ?_)
            · simp only [List.length_append, List.length_cons, List.length_nil] at hcount ⊢
              omega
            · exact hadvanced.after htalked rfl hshown
        · subst ht
          exact ⟨htalked.error err, rfl, ⟨_, hskip, hshown.trans (List.append_nil _).symm⟩,
            fun hr => by cases hr⟩

/-- A call goes on behind what has been passed. -/
theorem readEntry_directory (hs : Settled msize s p) (hl : Listed msize entries passed h)
    (hdistinct : (entries.map DirEntry.cookie).Nodup) (hzero : ∀ e ∈ entries, e.cookie ≠ 0) :
    Always (Peer.Step (.prompt msize (.directory entries))) readEntry h s p
      fun r g t q => Talked msize p r t q ∧
        (∃ passed', Listed msize entries passed' g ∧ DirEntry.shown passed' =
          DirEntry.shown passed ++ r.toOption.join.toList.map FileInfo.name) ∧
        (r = .ok none → g.pending = [] ∧ g.exhausted = true ∧ ∃ fid, g.ioFid = some fid) := by
  refine get_bind (.refuse (fun hne => absurd hl.kind hne) fun _ => ?_)
  have hclone : h.kind = .directory → ∀ said fid newfid qids,
      (Replies.directory entries).allowed said (.twalk fid newfid []) (.rwalk qids) → qids = [] := by
    intro _ said fid newfid qids ha
    rcases ha with ⟨ecode, he⟩ | ⟨-, hgrant⟩
    · cases he
    · obtain ⟨qids', hq, hlen⟩ := hgrant fid newfid [] rfl
      obtain rfl := Body.rwalk.inj hq
      exact List.eq_nil_of_length_eq_zero hlen
  refine (opened hs hclone).bind (fun fid g t q hopened => ?_) fun e g t q hopened => ?_
  · obtain ⟨htalked, ⟨qid, iounit, ioFid, rfl⟩, hio⟩ := hopened
    have hopen : Listed msize entries passed
        { h with location := { h.location with qid }, iounit, ioFid } :=
      ⟨hl.kind, hl.position, hl.split, hl.fits⟩
    have hfew := DirEntry.length_lt_of_distinct hdistinct hzero
    have hnext := nextEntry_directory fid htalked.settled hopen hdistinct hzero
      (Nat.lt_of_lt_of_le hfew (Nat.le_add_right patience _))
    refine hnext.mono fun r g t q' hadvanced => ?_
    refine ⟨hadvanced.talked.after htalked, hadvanced.listed, fun hr => ?_⟩
    obtain ⟨hpending, hexhausted⟩ := hadvanced.ended hr
    exact ⟨hpending, hexhausted, fid, hadvanced.ioFid.trans (hio fid rfl)⟩
  · obtain ⟨htalked, ⟨qid, iounit, ioFid, rfl⟩, -⟩ := hopened
    exact ⟨htalked.error e, ⟨passed, ⟨hl.kind, hl.position, hl.split, hl.fits⟩,
      (List.append_nil _).symm⟩, fun hr => by cases hr⟩

variable {σ : Type} {step : σ → Call → Answer → σ → Prop} {w : σ}

/-- When all has been given out, nothing more is asked for. -/
theorem readEntry_exhausted {fid : UInt32} (hk : h.kind = .directory) (hio : h.ioFid = some fid)
    (hp : h.pending = []) (he : h.exhausted = true) :
    Always step readEntry h s w fun r g t w' => r = .ok none ∧ g = h ∧ t = s ∧ w' = w := by
  refine get_bind (.refuse (fun hne => absurd hk hne) fun _ => ?_)
  have hopen : Always step ensureOpen h s w fun r g t w' =>
      r = .ok fid ∧ g = h ∧ t = s ∧ w' = w := by
    refine get_bind ?_
    rw [hio]
    exact pure ⟨rfl, rfl, rfl, rfl⟩
  refine hopen.bind (fun fid' g t w' ⟨_, hg, ht, hw⟩ => ?_) fun e g t w' ⟨hr, _⟩ => by cases hr
  subst hg ht hw
  obtain ⟨n, hn⟩ : ∃ n, patience = n + 1 := ⟨UInt64.size - 1, rfl⟩
  rw [hn]
  refine get_bind ?_
  rw [hp]
  refine set_bind ?_
  show Always _ (if g.exhausted then _ else _) _ _ _ _
  rw [if_pos he]
  refine pure ⟨rfl, ?_, rfl, rfl⟩
  show { g with position := g.position, pending := [] } = g
  rw [← hp]

/-- A directory can be moved to its start, and nowhere else. -/
theorem setPosition_directory (hk : h.kind = .directory) (position : UInt64) :
    Always step (setPosition position) h s w fun r g t w' => t = s ∧ w' = w ∧
      if position = 0 then r = .ok () ∧ g = { h with position := 0, pending := [], exhausted := false }
      else r = .error (.invalidParameter (.directoryPosition position)) ∧ g = h := by
  refine get_bind ?_
  show Always _ (if h.kind = .directory then _ else _) _ _ _ _
  rw [if_pos hk]
  refine .refuse (fun hne => ⟨rfl, rfl, ?_⟩) fun heq => ?_
  · rw [if_neg hne]
    exact ⟨rfl, rfl⟩
  · have hzero : position = 0 := Decidable.not_not.1 heq
    subst hzero
    refine Dialogue.Always.done ⟨rfl, rfl, ?_⟩
    rw [if_pos rfl]
    exact ⟨rfl, rfl⟩

end HandleClient.Always

namespace Handle

/-! ## Calls that follow each other -/

/-- Calls for the entries of a directory, and moves to a position, in any order;
with what the calls have given out since the last move that succeeded. A call that
fails gives out nothing. -/
inductive Listing (M : Manners) (h : Handle) (s : Session) (p : Peer) :
    List (Option FileInfo) → Handle → Session → Peer → Prop where
  | start : Listing M h s p [] h s p
  | call {given : List (Option FileInfo)} {r : Except Error (Option FileInfo)} {g g' : Handle}
    {t t' : Session} {q q' : Peer} : Listing M h s p given g t q →
    readEntry.Runs (Peer.Step M) g t q r g' t' q' →
    Listing M h s p (given ++ r.toOption.toList) g' t' q'
  | move {given : List (Option FileInfo)} {position : UInt64} {r : Except Error Unit} {g g' : Handle}
    {t t' : Session} {q q' : Peer} : Listing M h s p given g t q →
    (setPosition position).Runs (Peer.Step M) g t q r g' t' q' →
    Listing M h s p (if r.isOk then [] else given) g' t' q'

/-- What has been given out, entries and then ends, is what has been passed of the
directory. -/
structure Accounted (msize : UInt32) (entries : List DirEntry) (given : List (Option FileInfo))
    (passed : List DirEntry) (infos : List FileInfo) (ends : Nat) (g : Handle) : Prop where
  listed : Listed msize entries passed g
  given_eq : given = infos.map some ++ List.replicate ends none
  names : infos.map FileInfo.name = DirEntry.shown passed
  ended : 0 < ends → g.pending = [] ∧ g.exhausted = true ∧ ∃ fid, g.ioFid = some fid

/-- Before the end an entry is added, or the end is come to, or nothing changes. -/
theorem Accounted.add {given : List (Option FileInfo)} {infos : List FileInfo} {g g' : Handle}
    {r : Except Error (Option FileInfo)} {passed' : List DirEntry}
    (ha : Accounted msize entries given passed infos 0 g) (hl : Listed msize entries passed' g')
    (hs : DirEntry.shown passed' =
      DirEntry.shown passed ++ r.toOption.join.toList.map FileInfo.name)
    (he : r = .ok none → g'.pending = [] ∧ g'.exhausted = true ∧ ∃ fid, g'.ioFid = some fid) :
    ∃ infos' ends, Accounted msize entries (given ++ r.toOption.toList) passed' infos' ends g' := by
  have hgiven : given = infos.map some := by rw [ha.given_eq, List.replicate_zero, List.append_nil]
  rw [← ha.names] at hs
  rcases r with e | _ | info
  · exact ⟨infos, 0, hl, by simp [hgiven, Except.toOption], by simp [hs, Except.toOption],
      fun h0 => absurd h0 (Nat.lt_irrefl 0)⟩
  · exact ⟨infos, 1, hl, by simp [hgiven, Except.toOption], by simp [hs, Except.toOption],
      fun _ => he rfl⟩
  · exact ⟨infos ++ [info], 0, hl, by simp [hgiven, Except.toOption], by simp [hs, Except.toOption],
      fun h0 => absurd h0 (Nat.lt_irrefl 0)⟩

variable {given : List (Option FileInfo)} {g : Handle} {t : Session} {q : Peer}

theorem Listing.accounted
    (hl : Listing (.prompt msize (.directory entries)) h s p given g t q) (hs : Settled msize s p)
    (hu : h.Unread) (hdistinct : (entries.map DirEntry.cookie).Nodup)
    (hzero : ∀ e ∈ entries, e.cookie ≠ 0) :
    Settled msize t q ∧ ∃ passed infos ends, Accounted msize entries given passed infos ends g := by
  induction hl with
  | start => exact ⟨hs, [], [], 0, .of_unread hu, rfl, rfl, fun h0 => absurd h0 (Nat.lt_irrefl 0)⟩
  | @call given r g g' t t' q q' _ hrun ih =>
    obtain ⟨hsettled, passed, infos, ends, ha⟩ := ih
    cases ends with
    | zero =>
      obtain ⟨htalked, ⟨passed', hlisted, hshown⟩, hend⟩ :=
        (HandleClient.Always.readEntry_directory hsettled ha.listed hdistinct hzero).of_runs hrun
      exact ⟨htalked.settled, passed', ha.add hlisted hshown hend⟩
    | succ ends =>
      obtain ⟨hpending, hexhausted, fid, hio⟩ := ha.ended (Nat.succ_pos _)
      obtain ⟨rfl, rfl, rfl, rfl⟩ := (HandleClient.Always.readEntry_exhausted ha.listed.kind hio
        hpending hexhausted).of_runs hrun
      refine ⟨hsettled, passed, infos, ends + 2, ha.listed, ?_, ha.names,
        fun _ => ha.ended (Nat.succ_pos _)⟩
      rw [ha.given_eq, List.append_assoc, List.replicate_succ' (n := ends + 1)]
      rfl
  | @move given position r g g' t t' q q' _ hrun ih =>
    obtain ⟨hsettled, passed, infos, ends, ha⟩ := ih
    obtain ⟨rfl, rfl, hmoved⟩ :=
      (HandleClient.Always.setPosition_directory ha.listed.kind position).of_runs hrun
    refine ⟨hsettled, ?_⟩
    by_cases hposition : position = 0
    · rw [if_pos hposition] at hmoved
      obtain ⟨rfl, rfl⟩ := hmoved
      have hunread : Unread { g with position := 0, pending := [], exhausted := false } :=
        ⟨ha.listed.kind, rfl, rfl, rfl⟩
      exact ⟨[], [], 0, .of_unread hunread, rfl, rfl, fun h0 => absurd h0 (Nat.lt_irrefl 0)⟩
    · rw [if_neg hposition] at hmoved
      obtain ⟨rfl, rfl⟩ := hmoved
      exact ⟨passed, infos, ends, ha⟩

/-- Whatever fails, every entry of a directory is given out once, in order, and then
the end, again and again and without a request. The position is the cookie of the
last entry that was given out or passed over. A call fails only if the server has
reported an error. A directory can be moved to its start, which starts the listing
again, and a move to anywhere else fails and changes nothing. -/
theorem listing_exactly_once (hs : Settled msize s p) (hu : h.Unread)
    (hdistinct : (entries.map DirEntry.cookie).Nodup) (hzero : ∀ e ∈ entries, e.cookie ≠ 0) :
    ∀ given g t q, Listing (.prompt msize (.directory entries)) h s p given g t q →
      (∃ (passed : List DirEntry) (infos : List FileInfo) (ends : Nat),
        given = infos.map some ++ List.replicate ends none ∧
        infos.map FileInfo.name <+: DirEntry.shown entries ∧
        (0 < ends → infos.map FileInfo.name = DirEntry.shown entries) ∧
        passed <+: entries ∧ infos.map FileInfo.name = DirEntry.shown passed ∧
        g.position = DirEntry.lastCookie passed) ∧
      (∃ r g' t' q',
        readEntry.Runs (Peer.Step (.prompt msize (.directory entries))) g t q r g' t' q') ∧
      (∀ r g' t' q',
        readEntry.Runs (Peer.Step (.prompt msize (.directory entries))) g t q r g' t' q' →
        (none ∈ given → r = .ok none ∧ g' = g ∧ t' = t ∧ q' = q) ∧
        ∀ e, r = .error e → ∃ said request ecode,
          Peer.said q'.log = said ++ Peer.said q.log ∧ (request, .rlerror ecode) ∈ said) ∧
      ∀ position r g' t' q', (setPosition position).Runs
          (Peer.Step (.prompt msize (.directory entries))) g t q r g' t' q' →
        t' = t ∧ q' = q ∧ (position = 0 → r = .ok () ∧ g'.position = 0) ∧
          (position ≠ 0 → (∃ e, r = .error e) ∧ g' = g) := by
  intro given g t q hl
  obtain ⟨hsettled, passed, infos, ends, ha⟩ := hl.accounted hs hu hdistinct hzero
  have hfront := ha.listed.prefix_entries
  refine ⟨⟨passed, infos, ends, ha.given_eq, ?_, fun hends => ?_, hfront, ha.names,
    ha.listed.position⟩, HandleClient.Runs.total (Peer.Step.total _) _ g t q,
    fun r g' t' q' hrun => ⟨fun hnone => ?_, fun e he => ?_⟩, fun position r g' t' q' hrun => ?_⟩
  · obtain ⟨rest, rfl⟩ := hfront
    rw [ha.names, DirEntry.shown_append]
    exact List.prefix_append ..
  · rw [ha.names, ha.listed.complete (ha.ended hends).2.1]
  · have hends : 0 < ends := by
      rw [ha.given_eq, List.mem_append] at hnone
      rcases hnone with hnone | hnone
      · simp at hnone
      · exact Nat.pos_of_ne_zero (List.mem_replicate.1 hnone).1
    obtain ⟨hpending, hexhausted, fid, hio⟩ := ha.ended hends
    exact (HandleClient.Always.readEntry_exhausted ha.listed.kind hio hpending
      hexhausted).of_runs hrun
  · obtain ⟨htalked, -⟩ :=
      (HandleClient.Always.readEntry_directory hsettled ha.listed hdistinct hzero).of_runs hrun
    obtain ⟨said, hsaid, -, hfails⟩ := htalked.said
    obtain ⟨request, ecode, hx⟩ := hfails e he
    exact ⟨said, request, ecode, hsaid, hx⟩
  · obtain ⟨ht, hq, hmoved⟩ :=
      (HandleClient.Always.setPosition_directory ha.listed.kind position).of_runs hrun
    refine ⟨ht, hq, fun hposition => ?_, fun hposition => ?_⟩
    · rw [if_pos hposition] at hmoved
      exact ⟨hmoved.1, by rw [hmoved.2]⟩
    · rw [if_neg hposition] at hmoved
      exact ⟨⟨_, hmoved.1⟩, hmoved.2⟩

/-- The entries for the directory itself and for a file. -/
def oneFile : List DirEntry := [{ cookie := 1, name := "." }, { cookie := 2, name := "f" }]

/-- A handle on the directory, opened for reading. -/
def oneFileRoot : Handle :=
  { Handle.fresh ⟨1, {}⟩ ⟨2, { bits := Qid.directoryBit }⟩ "/" with ioFid := some 3 }

/-- A server that gives all entries at once, and fails the walk to the fid 4. -/
def oneFileServer (_ : List (Body × Body)) : Body → Body
  | .treaddir _ 0 _ => .rreaddir oneFile
  | .treaddir _ 2 _ => .rreaddir []
  | .twalk _ newfid [_] => if newfid = 4 then .rlerror 5 else .rwalk [{}]
  | .tgetattr .. => .rgetattr {}
  | .tclunk _ => .rclunk
  | _ => .rlerror 95

theorem served_oneFile : (Replies.directory oneFile).Served oneFileServer := by
  intro said request
  unfold oneFileServer
  split
  · refine Replies.gives_of_allowed said (Body.isShort_of_size (by decide) (by decide) rfl rfl) rfl
      ⟨fun _ cookie _ hr => ?_, fun _ _ _ hr => ?_⟩
    · obtain ⟨-, rfl, -⟩ := Body.treaddir.inj hr
      exact ⟨oneFile, rfl, List.prefix_refl _, fun hnil => by cases hnil⟩
    · cases hr
  · refine Replies.gives_of_allowed said (Body.isShort_of_size (by decide) (by decide) rfl rfl) rfl
      ⟨fun _ cookie _ hr => ?_, fun _ _ _ hr => ?_⟩
    · obtain ⟨-, rfl, -⟩ := Body.treaddir.inj hr
      exact ⟨[], rfl, List.nil_prefix, fun _ => rfl⟩
    · cases hr
  · split
    · exact Replies.gives_rlerror said _ 5
    · refine Replies.gives_of_allowed said (Body.isShort_of_size (by decide) (by decide) rfl rfl) rfl
        ⟨fun _ _ _ hr => ?_, fun _ _ _ hr => ?_⟩
      · cases hr
      · obtain ⟨-, -, rfl⟩ := Body.twalk.inj hr
        exact ⟨[{}], rfl, rfl⟩
  · exact Replies.gives_of_allowed said (Body.isShort_of_size (by decide) (by decide) rfl rfl) rfl
      ⟨fun _ _ _ hr => (by cases hr), fun _ _ _ hr => (by cases hr)⟩
  · exact Replies.gives_of_allowed said (Body.isShort_of_size (by decide) (by decide) rfl rfl) rfl
      ⟨fun _ _ _ hr => (by cases hr), fun _ _ _ hr => (by cases hr)⟩
  · exact Replies.gives_rlerror said _ 95

theorem runs_oneFile : ∃ q q',
    readEntry.Runs (Peer.Step (.prompt 8192 (.directory oneFile))) oneFileRoot
      { msize := 8192, fids := { next := 4 } } {} (.error (.server (.ofEcode 5)))
      { oneFileRoot with position := 1, pending := oneFile.drop 1 }
      { msize := 8192, fids := { next := 5 } } q ∧
    readEntry.Runs (Peer.Step (.prompt 8192 (.directory oneFile)))
      { oneFileRoot with position := 1, pending := oneFile.drop 1 }
      { msize := 8192, fids := { next := 5 } } q (.ok (some (.ofAttr "f" {})))
      { oneFileRoot with position := 2 } { msize := 8192, fids := { next := 6 } } q' :=
  ⟨_, _, served_oneFile.runs (by decide +kernel), served_oneFile.runs (by decide +kernel)⟩

/-- The file is given out by the second call, as the first has failed. -/
theorem listing_exactly_once_one_file :
    Settled 8192 { msize := 8192, fids := { next := 4 } } {} ∧ oneFileRoot.Unread ∧
      (oneFile.map DirEntry.cookie).Nodup ∧ (∀ e ∈ oneFile, e.cookie ≠ 0) ∧
      ∃ given g t q, Listing (.prompt 8192 (.directory oneFile)) oneFileRoot
          { msize := 8192, fids := { next := 4 } } {} given g t q ∧
        given = [some (.ofAttr "f" {})] ∧ ∃ passed, passed <+: oneFile ∧
          DirEntry.shown passed = ["f"] ∧ g.position = DirEntry.lastCookie passed := by
  have hs : Settled 8192 { msize := 8192, fids := { next := 4 } } {} := ⟨rfl, by decide, rfl⟩
  have hu : oneFileRoot.Unread := ⟨by decide, rfl, rfl, rfl⟩
  have hdistinct : (oneFile.map DirEntry.cookie).Nodup := by decide
  have hzero : ∀ e ∈ oneFile, e.cookie ≠ 0 := by decide
  obtain ⟨q, q', hfirst, hsecond⟩ := runs_oneFile
  have hl := ((Listing.start (M := .prompt 8192 (.directory oneFile))).call hfirst).call hsecond
  obtain ⟨⟨passed, infos, ends, hgiven, -, -, hfront, hnames, hposition⟩, -⟩ :=
    listing_exactly_once hs hu hdistinct hzero _ _ _ _ hl
  refine ⟨hs, hu, hdistinct, hzero, _, _, _, _, hl, rfl, passed, hfront, ?_, hposition⟩
  rw [← hnames]
  have hone : [some (.ofAttr "f" {})] = infos.map some ++ List.replicate ends none := hgiven
  cases infos with
  | nil =>
    cases ends with
    | zero => cases hone
    | succ ends => cases hone
  | cons info infos =>
    obtain ⟨hinfo, hrest⟩ := List.cons.inj hone
    have hnil : infos = [] := by
      have := (List.append_eq_nil_iff.1 hrest.symm).1
      simpa using this
    rw [hnil, ← Option.some.inj hinfo]
    rfl

end Handle

end NineP
