import NineP.Proofs.Handle.Enumeration
import NineP.Proofs.Handle.Reading
import NineP.Proofs.Volume.Admission

/-!
# A whole directory with its attributes

What a server has is the bytes of a file, the entries of a directory and the attributes of
what the entries name. It may refuse anything, but what it gives is of these:

* `Replies.holding`: the replies of such a server;
* `HandleClient.Always.nextEntry_holding`: an entry is given out with its own attributes;
* `HandleClient.Always.readEntry_holding`: and if there is none, then all have been passed.
-/

namespace NineP

/-- The name under which a fid was last walked to. -/
def Peer.nameOf? (fid : UInt32) : (said : List (Body × Body)) → Option String
  | [] => none
  | (.twalk _ newfid [name], .rwalk _) :: said =>
    if newfid = fid then some name else nameOf? fid said
  | _ :: said => nameOf? fid said

/-- The replies of a server that settles on a message size, with a file of this content and a
directory of these entries, each of which has certain attributes by its name. It gives as
many of the bytes at an offset as it likes, and none only at the end of the file, and as many
of the entries that follow a cookie as it likes, and none only at the end of the directory. To
any request it may reply with an error report instead. -/
def Replies.holding (msize : UInt32) (content : Bytes) (entries : List DirEntry)
    (has : String → Attr → Prop) : Replies where
  allowed said request reply := (∃ ecode, reply = .rlerror ecode) ∨
    match request with
    | .tversion proposal _ => ∃ most version,
      reply = .rversion most version ∧ min most proposal = msize
    | .tread _ offset count => ∃ data, reply = .rread data ∧ data.length ≤ count.toNat ∧
      data = (content.drop offset.toNat).take data.length ∧
      (data = [] → content.length ≤ offset.toNat)
    | .treaddir _ cookie _ => ∃ batch, reply = .rreaddir batch ∧
      batch <+: DirEntry.following cookie entries ∧
      (batch = [] → DirEntry.following cookie entries = [])
    | .tgetattr fid _ => ∃ attr, reply = .rgetattr attr ∧
      ∀ name, Peer.nameOf? fid said = some name → has name attr
    | _ => True
  total _ _ _ _ := ⟨.rlerror 1, .inl ⟨1, rfl⟩, .inr rfl, Body.isShort_rlerror 1⟩

theorem Replies.agreeing_holding {msize : UInt32} {content : Bytes} {entries : List DirEntry}
    {has : String → Attr → Prop} : (holding msize content entries has).Agreeing msize := by
  intro said proposal protocol most version ha
  rcases ha with ⟨ecode, he⟩ | ⟨most', version', hr, hagreed⟩
  · cases he
  · obtain ⟨rfl, rfl⟩ := Body.rversion.inj hr
    exact hagreed

/-- What it gives of the file is what a server with only the file may give. -/
theorem Replies.file_of_holding {msize : UInt32} {content : Bytes} {entries : List DirEntry}
    {has : String → Attr → Prop} {said : List (Body × Body)} {request reply : Body}
    (h : (holding msize content entries has).allowed said request reply) :
    (file content).allowed said request reply := by
  rcases h with herror | hgiven
  · exact .inl herror
  · refine .inr fun fid offset count hr => ?_
    subst hr
    exact hgiven

open Session

variable {msize agreed : UInt32} {content : Bytes} {entries passed : List DirEntry}
  {has : String → Attr → Prop} {h : Handle} {s : Session} {p : Peer}

/-- An entry is described by its name and by attributes that it has. -/
def FileInfo.Describes (has : String → Attr → Prop) (info : FileInfo) : Prop :=
  ∃ attr, has info.name attr ∧ info = .ofAttr info.name attr

/-! ## Requests -/

namespace Client.Always

/-- What is given for a listing is a batch of the entries that have not been passed. -/
theorem readdir_holding {rest : List DirEntry} (hs : Settled msize s p)
    (hdistinct : (entries.map DirEntry.cookie).Nodup) (hzero : ∀ e ∈ entries, e.cookie ≠ 0)
    (hall : entries = passed ++ rest) (fid : UInt32) (count : UInt32) :
    Always (Peer.Step (.prompt msize (.holding agreed content entries has)))
      (Session.readdir fid (DirEntry.lastCookie passed) count) s p fun r t q =>
        ∀ batch, r = .ok batch → Settled msize t q ∧ batch <+: rest ∧ (batch = [] → rest = []) ∧
          ∀ e ∈ batch, e.name.utf8ByteSize ≤ Codec.maxTextSize ∧
            e.name.utf8ByteSize ≤ msize.toNat - 19 := by
  have hunseen : DirEntry.following (DirEntry.lastCookie passed) entries = rest := by
    subst hall
    exact DirEntry.following_append hdistinct hzero
  let op : Query (List DirEntry) := .readdir fid (DirEntry.lastCookie passed) count
  refine (op.always_settled hs trivial nofun nofun).mono fun r t q ⟨_, hok⟩ batch hr => ?_
  obtain ⟨hsettled, answer, hheard, hallowed, hreading⟩ := hok batch hr
  cases answer with
  | rreaddir batch' =>
    obtain rfl := Except.ok.inj (Option.some.inj hreading)
    rcases hallowed with ⟨ecode, he⟩ | ⟨batch, hb, hfront, hnone⟩
    · cases he
    · obtain rfl := Body.rreaddir.inj hb
      rw [hunseen] at hfront hnone
      exact ⟨hsettled, hfront, hnone, hheard.names_fit⟩
  | _ => cases hreading

/-- An entry is described by attributes that it has. -/
theorem entryInfo_holding {entry : DirEntry} (hs : Settled msize s p) :
    Always (Peer.Step (.prompt msize (.holding agreed content entries has)))
      (h.entryInfo entry) s p fun r t q => ∀ info, r = .ok info →
        Settled msize t q ∧ info.name = entry.name ∧ info.Describes has := by
  let fid := s.fids.take.1
  refine counted ?_
  let walk : Query (List Qid) := .walk h.location.fid fid [entry.name]
  have hone : (walk.body { s with fids := s.fids.take.2 }).CountsHold :=
    (by decide : 1 ≤ 65535)
  refine bind (walk.always_settled (hs.counted s.fids.take.2) hone nofun nofun)
    (fun qids t q ⟨_, hok⟩ => ?_) fun e t q _ info hr => by cases hr
  obtain ⟨hsettled, answer, hheard, -, hreading⟩ := hok qids rfl
  have hname : Peer.nameOf? fid (Peer.said q.log) = some entry.name := by
    rw [hheard.said]
    cases answer with
    | rwalk => exact if_pos rfl
    | _ => cases hreading
  let getattr : Query Attr := .getattr fid .all
  refine bind_of_yields (attempt (getattr.always_settled hsettled trivial nofun nofun))
    fun attr t q' ⟨_, hok⟩ => ?_
  cases attr with
  | error e =>
    have hfails : Fails (.prompt msize (.holding agreed content entries has))
        (Session.release fid >>= fun _ => MonadExcept.throw e : Client FileInfo) :=
      .bind _ fun _ => .throw e
    exact hfails.always
  | ok attr =>
    obtain ⟨hsettled, answer, hheard, hallowed, hreading⟩ := hok attr rfl
    refine (returned hsettled fid).bind_of_yields fun _ t q'' ⟨ht, _, hback, _⟩ => ?_
    refine .pure fun info hr => ⟨ht ▸ hsettled.heard hback, ?_⟩
    obtain rfl := Except.ok.inj hr
    refine ⟨rfl, attr, ?_, rfl⟩
    cases answer with
    | rgetattr attr' =>
      obtain rfl := Except.ok.inj (Option.some.inj hreading)
      rcases hallowed with ⟨ecode, he⟩ | ⟨attr, hattr, hhas⟩
      · cases he
      · obtain rfl := Body.rgetattr.inj hattr
        exact hhas entry.name hname
    | _ => cases hreading

end Client.Always

/-! ## Handles -/

/-- What the next entry is: one more has been passed that is shown, and it is described; or
there is none, and all have been passed. -/
structure Handle.Itemized (msize : UInt32) (entries passed : List DirEntry)
    (has : String → Attr → Prop) (found : Option FileInfo) (g : Handle) (t : Session) (q : Peer) :
    Prop where
  settled : Session.Settled msize t q
  listed : ∃ passed', Listed msize entries passed' g ∧
    DirEntry.shown passed' = DirEntry.shown passed ++ found.toList.map FileInfo.name ∧
    (found = none → passed' = entries)
  describes : ∀ info, found = some info → info.Describes has

/-- Entries that are not shown do not count. -/
theorem Handle.Itemized.of_shown {passed' : List DirEntry} {found : Option FileInfo} {g : Handle}
    {t : Session} {q : Peer} (hi : Itemized msize entries passed' has found g t q)
    (hshown : DirEntry.shown passed' = DirEntry.shown passed) :
    Itemized msize entries passed has found g t q where
  settled := hi.settled
  listed := hshown ▸ hi.listed
  describes := hi.describes

namespace HandleClient.Always

open Handle (Listed Itemized)

variable {replies : Replies}

/-- A handle that is opened for reading is still the same. -/
theorem ensureOpen_settled (hs : Settled msize s p) :
    Always (Peer.Step (.prompt msize replies)) Handle.ensureOpen h s p fun r g t q =>
      ∀ fid, r = .ok fid → Settled msize t q ∧ h.Kept g := by
  have opened {fid : UInt32} {t : Session} {q : Peer} (hs : Settled msize t q) :
      Always (Peer.Step (.prompt msize replies)) (h.openOn fid) h t q fun r g t q =>
        ∀ fid, r = .ok fid → Settled msize t q ∧ h.Kept g :=
    (openOn fid hs).mono fun _ _ _ _ hopened _ _ => ⟨hopened.talked.settled, hopened.kept⟩
  refine ensureOpen_of_openOn (fun _ _ _ _ => ⟨hs, .refl h⟩) (fun _ _ => counted ?_)
    fun _ _ => opened hs
  let walk : Query (List Qid) := .walk h.location.fid s.fids.take.1 []
  exact ofClient_bind
    (walk.always_settled (hs.counted s.fids.take.2) (Nat.zero_le _) nofun nofun)
    (fun qids t q ⟨_, hok⟩ => opened (hok qids rfl).1) fun _ _ _ _ => nofun

/-- The next entry is passed and described. If there is none, then all have been passed. -/
theorem nextEntry_holding (fid : UInt32) {fuel : Nat} (hs : Settled msize s p)
    (hl : Listed msize entries passed h) (hdistinct : (entries.map DirEntry.cookie).Nodup)
    (hzero : ∀ e ∈ entries, e.cookie ≠ 0) :
    Always (Peer.Step (.prompt msize (.holding agreed content entries has)))
      (Handle.nextEntry fid fuel) h s p fun r g t q => ∀ found, r = .ok found →
        Itemized msize entries passed has found g t q := by
  induction fuel generalizing h s p passed with
  | zero => exact throw fun _ hr => by cases hr
  | succ fuel ih =>
    refine get_bind ?_
    generalize hskipped : Handle.skipDots h.position h.pending = skipped
    obtain ⟨position, pending⟩ := skipped
    obtain ⟨dots, hskip, hshown, -, hhead⟩ := hl.skipDots hskipped
    refine set_bind ?_
    cases pending with
    | cons e rest =>
      have hdot := hhead e rest rfl
      refine ofClient_bind (Client.Always.entryInfo_holding hs) (fun info t q hok => ?_)
        fun _ _ _ _ _ hr => by cases hr
      obtain ⟨hsettled, hname, hdescribes⟩ := hok info rfl
      refine set_bind (pure fun found hr => ?_)
      obtain rfl := Except.ok.inj hr
      refine ⟨hsettled, ⟨_, hskip.give rfl, ?_, fun hnone => by cases hnone⟩, fun info' hi => ?_⟩
      · rw [DirEntry.shown_append, hshown, DirEntry.shown_singleton hdot, ← hname]
        rfl
      · exact Option.some.inj hi ▸ hdescribes
    | nil =>
      -- Nothing is given out, and all that has been passed is not shown.
      have hend {g : Handle} {t : Session} {q : Peer} (hsettled : Settled msize t q)
          (hg : Listed msize entries (passed ++ dots) g) (he : g.exhausted = true) :
          Itemized msize entries passed has none g t q :=
        ⟨hsettled, ⟨_, hg, hshown.trans (List.append_nil _).symm, fun _ => hg.complete he⟩,
          fun _ hi => by cases hi⟩
      show Always _ (if h.exhausted then _ else _) _ _ _ _
      by_cases he : h.exhausted = true
      · rw [if_pos he]
        exact pure fun found hr => Except.ok.inj hr ▸ hend hs hskip he
      · rw [if_neg he]
        have hmore : h.exhausted = false := Bool.eq_false_iff.2 he
        obtain ⟨unseen, hall, -⟩ := hskip.split
        obtain rfl : position = DirEntry.lastCookie (passed ++ dots) := hskip.position
        have hall : entries = (passed ++ dots) ++ unseen := hall
        refine session_bind (ofClient_bind
          (Client.Always.readdir_holding hs hdistinct hzero hall fid s.readdirCeiling)
          (fun batch t q hok => ?_)
          fun _ _ _ _ _ hr => by cases hr)
        obtain ⟨hsettled, hfront, hnone, hfits⟩ := hok batch rfl
        cases batch with
        | nil =>
          refine set_bind (pure fun found hr => Except.ok.inj hr ▸ hend hsettled ?_ rfl)
          exact hskip.finish rfl hall (hnone rfl)
        | cons e batch =>
          refine set_bind ((ih hsettled (hskip.fetch hall hfront hmore hfits)).mono ?_)
          exact fun r g t q hnext found hr => (hnext found hr).of_shown hshown

/-- A call goes on behind what has been passed. -/
theorem readEntry_holding (hs : Settled msize s p) (hl : Listed msize entries passed h)
    (hdistinct : (entries.map DirEntry.cookie).Nodup) (hzero : ∀ e ∈ entries, e.cookie ≠ 0) :
    Always (Peer.Step (.prompt msize (.holding agreed content entries has))) Handle.readEntry h s p
      fun r g t q => ∀ found, r = .ok found → Itemized msize entries passed has found g t q := by
  refine get_bind (.refuse (fun hne => absurd hl.kind hne) fun _ => ?_)
  refine (ensureOpen_settled hs).bind (fun fid g t q hok => ?_) fun _ _ _ _ _ _ hr => by cases hr
  obtain ⟨hsettled, qid, iounit, ioFid, rfl⟩ := hok fid rfl
  exact nextEntry_holding fid hsettled ⟨hl.kind, hl.position, hl.split, hl.fits⟩ hdistinct hzero

end HandleClient.Always

end NineP
