import NineP.Proofs.Handle.Conduct
import NineP.Proofs.Volume.Itinerary
import NineP.Proofs.Volume.Lifecycle
import NineP.Proofs.Volume.Stays

/-!
# What a client sends for each deed

For each deed it is said which fids its walks are from, and how much is sent before
a mistake of the caller is refused (`Visit.Performed`). Only a path may be refused
once something has been sent: at the first of its names that no walk is sent for.

* `Wire.Treads`: from which fids walks may be, after what has been sent before them;
* `Session.always_resolved`: a path is walked from its origin, and then from the fids
  that were asked for on the way;
* `Visit.Ready.perform`: what is sent for any deed;
* `Visit.Reached`: what there may be of a volume, whatever is done with it.
-/

namespace NineP

/-- Each walk in the record is from a fid that is right after what was sent before
it. -/
def Wire.Treads (P : UInt32 → Wire → Prop) : Wire → Prop
  | [] => True
  | entry :: earlier => Wire.WalksFrom (P · earlier) entry ∧ Treads P earlier

namespace Wire

variable {P Q : UInt32 → Wire → Prop} {entry : Bytes × Bytes} {later earlier sent : Wire}

theorem Treads.mono (h : Treads P sent)
    (hq : ∀ fid earlier, earlier <:+ sent → P fid earlier → Q fid earlier) : Treads Q sent := by
  induction sent with
  | nil => trivial
  | cons entry earlier ih =>
    have hsuffix := List.suffix_cons entry earlier
    refine ⟨fun fid new names answer he => ?_, ih h.2 fun fid rest hr => ?_⟩
    · exact hq fid earlier hsuffix (h.1 fid new names answer he)
    · exact hq fid rest (hr.trans hsuffix)

/-- What is sent after something else. -/
theorem Treads.append (h : Treads P earlier) (hl : Treads Q later)
    (hq : ∀ fid rest, Q fid rest → P fid (rest ++ earlier)) : Treads P (later ++ earlier) := by
  induction later with
  | nil => exact h
  | cons entry later ih =>
    exact ⟨fun fid new names answer he => hq fid later (hl.1 fid new names answer he), ih hl.2⟩

/-- Walks that are right after anything. -/
theorem Treads.of_forall {R : UInt32 → Prop} (h : ∀ entry ∈ sent, WalksFrom R entry) :
    Treads (fun fid _ => R fid) sent := by
  induction sent with
  | nil => trivial
  | cons entry earlier ih =>
    obtain ⟨hentry, hrest⟩ := List.forall_mem_cons.1 h
    exact ⟨hentry, ih hrest⟩

/-- Where the walks of a path go on from: its origin, and then the fids that were asked
for on the way, as long as nothing has been opened. -/
def OnTheWay (origin fid : UInt32) (earlier : Wire) : Prop :=
  earlier.transcript.tried = [] ∧
    (fid = origin ∧ earlier = [] ∨ fid ∈ earlier.transcript.named)

/-- What has been sent on the way. -/
structure Strides (origin : UInt32) (sent : Wire) : Prop where
  treads : Treads (OnTheWay origin) sent
  unopened : sent.transcript.tried = []

namespace Strides

variable {origin : UInt32} {request : Body} {answer : Option Body}

theorem nil (origin : UInt32) : Strides origin [] := ⟨trivial, rfl⟩

theorem cons (h : Strides origin sent) (he : exchanged? entry = some (request, answer))
    (ho : request.opens? = none)
    (hw : ∀ fid new names, request = .twalk fid new names →
      fid = origin ∧ sent = [] ∨ fid ∈ sent.transcript.named) : Strides origin (entry :: sent) := by
  refine ⟨⟨fun fid new names answer' hwalk => ⟨h.unopened, ?_⟩, h.treads⟩, ?_⟩
  · exact hw fid new names (congrArg Prod.fst (Option.some.inj (he.symm.trans hwalk)))
  · rw [transcript_cons he, Transcript.tried_cons, ho, h.unopened]
    rfl

end Strides

end Wire

/-! ## Paths -/

namespace Session

open Client

variable {origin : UInt32} {msize : UInt32} {base sent log : Wire} {s : Session}

/-- What is given back on the way. -/
theorem always_givenBack {owned : Option UInt32} (hs : minMsize ≤ s.msize)
    (hsent : sent.Strides origin) :
    Always Wire.Step (releaseAny owned) s (sent ++ base) (Yields fun _ t log => t.msize = s.msize ∧
      ∃ more, log = more ++ base ∧ more.Strides origin ∧
        more.length = sent.length + owned.toList.length ∧
        sent.transcript.named ⊆ more.transcript.named) := by
  cases owned with
  | none => exact .pure ⟨(), rfl, rfl, sent, rfl, hsent, rfl, List.Subset.refl _⟩
  | some fid =>
    have hclunk : Always Wire.Step (clunk fid) s (sent ++ base) fun r t log =>
        t.msize = s.msize ∧ Wire.Entered (.tclunk fid) (sent ++ base) log := by
      let op : Query Unit := .clunk fid
      have hsend : op.Sendable s := Query.sendable_of_isPlain rfl hs
      exact (Query.always_asked hsend trivial).mono fun r t log h => ⟨congrArg _ h.1, h.2.2⟩
    refine hclunk.attempt.bind_of_yields fun _ t log ⟨ht, entry, answer, hlog, he⟩ => .pure ?_
    refine ⟨(), rfl, ht, entry :: sent, hlog, ?_, rfl, ?_⟩
    · exact hsent.cons he rfl fun _ _ _ h => by cases h
    · rw [Wire.transcript_cons he, Transcript.named_cons]
      exact List.subset_append_right ..

/-- A walk through names is refused where a name is too long: all names before it have
been walked, and the fids of those walks have been given back. -/
theorem always_descend {root : Qid} {owned : Option UInt32} {current : Location}
    {names : List String} {count : Nat} (hs : minMsize ≤ s.msize) (hsent : sent.Strides origin)
    (hlen : sent.length + owned.toList.length = 2 * count)
    (hhere : current.fid = origin ∧ sent = [] ∨ current.fid ∈ sent.transcript.named) :
    Always Wire.Step (descend root owned current names) s (sent ++ base) fun r t log =>
      t.msize = s.msize ∧ ∃ more, log = more ++ base ∧ more.Strides origin ∧
        (Accepted r ∨
          more.length = 2 * (count + (names.takeWhile (passable s.msize)).length)) := by
  induction names generalizing owned current sent s count with
  | nil => exact .pure ⟨rfl, sent, rfl, hsent, .inl (.ok _)⟩
  | cons name names ih =>
    refine .descend_cons (fun _ => ?_) fun _ => ?_
    · refine (always_givenBack hs hsent).mono fun _ t log ⟨_, hr, h⟩ => ⟨(), hr, ?_⟩
      obtain ⟨ht, more, hlog, hmore, -⟩ := h
      exact ⟨ht, more, hlog, hmore, .inl (.error rfl)⟩
    · refine Always.freshFid_bind ?_
      refine Query.always_stepped.attempt.bind_of_yields fun step t log h => ?_
      obtain ⟨rfl, ⟨hpass, ha, entry, answer, rfl, he⟩ | ⟨hpass, rfl, e, rfl⟩⟩ := h
      · have hentry : Wire.Strides origin (entry :: sent) := by
          refine hsent.cons he rfl fun fid new names' hb => ?_
          obtain ⟨rfl, -, -⟩ := Body.twalk.inj hb
          exact hhere
        have hnew : s.fids.take.1 ∈ (Wire.transcript (entry :: sent)).named := by
          rw [Wire.transcript_cons he, Transcript.named_cons]
          exact List.mem_cons_self ..
        have hback : Always Wire.Step (releaseAny owned) _ ((entry :: sent) ++ base) _ :=
          always_givenBack (s := { s with fids := s.fids.take.2 }) hs hentry
        refine hback.bind_of_yields fun _ u log h => ?_
        obtain ⟨hu, more, rfl, hmore, hmorelen, hnamed⟩ := h
        have hu : u.msize = s.msize := hu
        cases step with
        | error e => exact .throw ⟨hu, more, rfl, hmore, .inl ha.of_error⟩
        | ok qids =>
          cases qids with
          | nil => exact .throw ⟨hu, more, rfl, hmore, .inl (.error rfl)⟩
          | cons qid qids =>
            have hlen' : more.length + (some s.fids.take.1).toList.length = 2 * (count + 1) := by
              have hentrylen : (entry :: sent).length = sent.length + 1 := rfl
              have hone : (some s.fids.take.1).toList.length = 1 := rfl
              omega
            refine (ih (hu ▸ hs) hmore hlen' (.inr (hnamed hnew))).mono fun r v log h => ?_
            obtain ⟨hv, most, hlog, hmost, hrefused⟩ := h
            refine ⟨hv.trans hu, most, hlog, hmost, hrefused.imp_right fun hcount => ?_⟩
            have hpass' : passable s.msize name = true := hpass
            rw [hcount, hu, List.takeWhile_cons_of_pos hpass', List.length_cons]
            omega
      · have hback : Always Wire.Step (releaseAny owned) _ (sent ++ base) _ :=
          always_givenBack (s := { s with fids := s.fids.take.2 }) hs hsent
        refine hback.bind_of_yields fun _ u log h => .throw ?_
        obtain ⟨hu, more, hlog, hmore, hmorelen, -⟩ := h
        refine ⟨hu, more, hlog, hmore, .inr ?_⟩
        have hpass' : ¬ passable s.msize name = true := by
          rw [show passable s.msize name = false from hpass]
          decide
        rw [hmorelen, List.takeWhile_cons_of_neg hpass', hlen]
        rfl

/-- How many of the names in front of a path are walked before it is refused. -/
def passed (msize : UInt32) (path : String) : Nat :=
  ((Path.components path).takeWhile (passable msize)).length

theorem passed_empty (msize : UInt32) : passed msize "" = 0 := by
  rw [passed, show Path.components "" = [] by decide]
  rfl

/-- What has been sent for a path, and how much that is if it was refused. -/
def Resolved (origin : UInt32) (msize : UInt32) (base : Wire) (path : String)
    (r : Except Error α) (t : Session) (log : Wire) : Prop :=
  t.msize = msize ∧ ∃ sent, log = sent ++ base ∧ sent.Treads (Wire.OnTheWay origin) ∧
    (Accepted r ∨ sent.length = 2 * passed msize path)

/-- The fid that a path is walked from. -/
def pathOrigin (root start : Location) (path : String) : UInt32 :=
  if Path.isAbsolute path then root.fid else start.fid

theorem pathOrigin_self (root : Location) (path : String) :
    pathOrigin root root path = root.fid := ite_self _

theorem always_resolved {root start : Location} {path : String} (hs : minMsize ≤ s.msize) :
    Always Wire.Step (resolve root start path) s log
      (Resolved (pathOrigin root start path) s.msize log path) := by
  let origin := if Path.isAbsolute path then root else start
  have horigin : origin.fid = pathOrigin root start path := apply_ite Location.fid ..
  refine .resolve_of_descend (fun _ => ⟨rfl, [], rfl, trivial, .inl (.error rfl)⟩) (fun _ _ => ?_)
    fun _ _ => ?_
  · refine Always.freshFid_bind ?_
    let op : Query (List Qid) := .walk origin.fid s.fids.take.1 []
    have hwalk : Always Wire.Step op.perform { s with fids := s.fids.take.2 } log
        fun r t log' => t.msize = s.msize ∧ Accepted r ∧ ∃ sent, log' = sent ++ log ∧
          sent.Treads (Wire.OnTheWay (pathOrigin root start path)) := by
      have hsend : op.Sendable { s with fids := s.fids.take.2 } := Query.sendable_walk_nil hs
      have hcount : (op.body { s with fids := s.fids.take.2 }).CountsHold := Nat.zero_le 65535
      refine (Query.always_asked hsend hcount).mono ?_
      rintro r t log' ⟨ht, ha, entry, answer, hlog, he⟩
      refine ⟨by rw [ht]; rfl, ha, [entry], hlog, ?_⟩
      refine (Wire.Strides.cons (.nil _) he rfl fun fid new names hb => .inl ⟨?_, rfl⟩).treads
      obtain ⟨rfl, -, -⟩ := Body.twalk.inj hb
      exact horigin
    refine hwalk.bind (fun _ t log' h => .pure ?_) fun e t log' h => ?_
    · exact ⟨h.1, h.2.2.imp fun _ hsent => ⟨hsent.1, hsent.2, .inl (.ok _)⟩⟩
    · exact ⟨h.1, h.2.2.imp fun _ hsent => ⟨hsent.1, hsent.2, .inl h.2.1.of_error⟩⟩
  · have hdescend : Always Wire.Step (descend root.qid none origin (Path.components path)) s
        ([] ++ log) _ :=
      always_descend hs (.nil (pathOrigin root start path)) (Nat.mul_zero 2).symm
        (.inl ⟨horigin, rfl⟩)
    refine hdescend.mono fun r t log' h => ?_
    obtain ⟨ht, sent, hlog, hsent, hrefused⟩ := h
    refine ⟨ht, sent, hlog, hsent.treads, hrefused.imp_right fun hcount => ?_⟩
    rw [hcount, Nat.zero_add]
    rfl

/-- A path of some names is walked from the root. -/
theorem resolve_of_plan {root : Location} {path name : String} {names : List String}
    (hplan : Path.plan path true = .ok ⟨false, name :: names⟩) :
    resolve root root path = descend root.qid none root (name :: names) := by
  rw [resolve, beq_self_eq_true, Bool.true_or, hplan]
  rfl

/-- A path is resolved and taken over by a handle. -/
theorem always_opened {root start : Location} {path name : String} (hs : minMsize ≤ s.msize) :
    Always Wire.Step (do
      let location ← resolve root start path
      Handle.establish root location name) s log fun r t log' =>
        Resolved (pathOrigin root start path) s.msize log path r t log' ∧
          ∀ h, r = .ok h → ∀ e ∈ h.pending, passable s.msize e.name = true := by
  refine (always_resolved hs).bind (fun location t log' h => ?_) fun e t log' h => ?_
  · obtain ⟨ht, sent, rfl, hsent, -⟩ := h
    have hb : Bound (fun _ => False) s.msize (sent ++ log) t (sent ++ log) := ht ▸ .start t _
    refine (hb.establish hs).mono fun r u log' ⟨⟨ha, hu, more, hlog, hmore⟩, hpending⟩ => ?_
    have htreads := hsent.append (.of_forall hmore) fun _ _ => False.elim
    refine ⟨⟨hu, more ++ sent, ?_, htreads, .inl ha⟩, hpending⟩
    rw [hlog, List.append_assoc]
  · obtain ⟨ht, sent, hlog, hsent, hrefused⟩ := h
    exact ⟨⟨ht, sent, hlog, hsent, hrefused.imp_left Accepted.of_error⟩, fun _ hr => by cases hr⟩

end Session

/-! ## Deeds -/

/-- The path that a deed opens, if it opens one. -/
def Volume.Deed.path? : Deed → Option String
  | .act (.openPath path) | .act (.use _ (.openPath path)) => some path
  | _ => none

/-- How many walks are answered before a deed may be refused. -/
def Volume.Deed.passed (deed : Deed) (msize : UInt32) : Nat :=
  (deed.path?.map (Session.passed msize)).getD 0

theorem Volume.Deed.passed_openPath (path : String) (msize : UInt32) :
    passed (.act (.openPath path)) msize = Session.passed msize path := rfl

namespace Visit

variable {visit visit' : Visit} {log log' : Wire} {deed : Volume.Deed} {place : Nat} {h : Handle}

/-- The fid that the path of a deed is walked from, if there is a path. -/
def origin? (visit : Visit) : Volume.Deed → Option UInt32
  | .act .openRoot | .act (.openPath _) => some visit.volume.root.fid
  | .act (.use place (.openPath path)) =>
    visit.handles[place]?.map fun h => Session.pathOrigin h.root h.location path
  | _ => none

/-- The fids that a deed may walk from, after what it has sent before: that of the
directory it is done to, or those on the way through a path. -/
def Source (visit : Visit) (deed : Volume.Deed) (fid : UInt32) (earlier : Wire) : Prop :=
  (∃ place action h, deed = .act (.use place action) ∧ visit.handles[place]? = some h ∧
    h.kind = .directory ∧ fid = h.location.fid) ∨
  ∃ origin, visit.origin? deed = some origin ∧ Wire.OnTheWay origin fid earlier

/-- The message size is large enough, and the entries that the handles keep can be
walked to. -/
structure Ready (visit : Visit) : Prop where
  least : minMsize ≤ visit.session.msize
  pending : ∀ h ∈ visit.handles, ∀ e ∈ h.pending,
    Session.passable visit.session.msize e.name = true

/-- What comes of a deed: what has been sent for it, and how much that is if it was
refused. -/
structure Performed (visit : Visit) (deed : Volume.Deed) (log : Wire) (visit' : Visit)
    (log' : Wire) : Prop where
  ready : visit'.Ready
  volume : visit'.volume = visit.volume
  idle : visit.idle ≤ visit'.idle
  sent : ∃ sent, log' = sent ++ log ∧ sent.Treads (visit.Source deed) ∧
    ∀ misuse, visit'.results = .error (.invalidParameter misuse) :: visit.results →
      sent.length = 2 * deed.passed visit.session.msize

/-- No mistake was refused, and no walk was sent. -/
structure Left (visit : Visit) (log : Wire) (visit' : Visit) (log' : Wire) : Prop where
  ready : visit'.Ready
  volume : visit'.volume = visit.volume
  idle : visit.idle ≤ visit'.idle
  accepted : ∀ misuse, visit'.results ≠ .error (.invalidParameter misuse) :: visit.results
  sent : ∃ sent, log' = sent ++ log ∧ ∀ entry ∈ sent, Wire.WalksFrom (fun _ => False) entry

theorem Left.performed (h : visit.Left log visit' log') : visit.Performed deed log visit' log' := by
  obtain ⟨sent, hlog, hsent⟩ := h.sent
  exact ⟨h.ready, h.volume, h.idle, sent, hlog,
    (Wire.Treads.of_forall hsent).mono fun _ _ _ => False.elim,
    fun misuse hm => absurd hm (h.accepted misuse)⟩

theorem idle_le_record {α : Type} {r : Except Error α} {session : Session}
    {handles : List Handle} : visit.idle ≤ (visit.record r session handles).idle := by
  rw [idle_record]
  exact Nat.le_add_right ..

theorem mem_results {α : Type} {r : Except Error α} {session : Session} {handles : List Handle}
    {misuse : Misuse}
    (h : (visit.record r session handles).results =
      .error (.invalidParameter misuse) :: visit.results) :
    r = .error (.invalidParameter misuse) := by
  have hr : (fun _ => ()) <$> r = (.error (.invalidParameter misuse) : Except Error Unit) :=
    (List.cons.inj h).1
  cases r with
  | ok a => cases hr
  | error e => exact congrArg _ (Except.error.inj hr)

namespace Ready

/-- A handle is opened by a path. -/
theorem enter {x : Client Handle} {origin : UInt32} {path : String} (hv : visit.Ready)
    (ho : visit.origin? deed = some origin)
    (hp : Session.passed visit.session.msize path = deed.passed visit.session.msize)
    (hx : x.Always Wire.Step visit.session log fun r t log' =>
      Session.Resolved origin visit.session.msize log path r t log' ∧
        ∀ h, r = .ok h → ∀ e ∈ h.pending, Session.passable visit.session.msize e.name = true) :
    Dialogue.Always Wire.Step (visit.enter x) log (visit.Performed deed log) := by
  refine Dialogue.Always.bind hx fun (r, session) log' hr => ?_
  obtain ⟨⟨ht, sent, hlog, hsent, hrefused⟩, hpending⟩ := hr
  have ht : session.msize = visit.session.msize := ht
  have performed {handles : List Handle}
      (hh : ∀ h ∈ handles, ∀ e ∈ h.pending, Session.passable visit.session.msize e.name = true) :
      visit.Performed deed log (visit.record r session handles) log' := by
    refine ⟨⟨ht ▸ hv.least, ht ▸ hh⟩, rfl, idle_le_record, sent, hlog, ?_, fun misuse hm => ?_⟩
    · exact hsent.mono fun fid earlier _ hway => .inr ⟨origin, ho, hway⟩
    · rw [← hp]
      exact hrefused.resolve_left fun ha => ha.not_misuse (mem_results hm)
  cases r with
  | ok h =>
    refine .done (performed fun g hg => ?_)
    rcases List.mem_append.1 hg with hg | hg
    · exact hv.pending g hg
    · exact List.mem_singleton.1 hg ▸ hpending h rfl
  | error e => exact .done (performed hv.pending)

/-- What is asked of the session alone is never refused. -/
theorem leave {α : Type} {x : Client α} {handles : List Handle} (hv : visit.Ready)
    (hs : ∀ h ∈ handles, h ∈ visit.handles)
    (hx : x.Always Wire.Step visit.session log
      (Session.Sends (fun _ => False) visit.session.msize log)) :
    Dialogue.Always Wire.Step (visit.leave x handles) log (visit.Left log) := by
  refine Dialogue.Always.bind hx fun (r, session) log' ⟨ha, ht, hsent⟩ => .done ?_
  have ht : session.msize = visit.session.msize := ht
  exact ⟨⟨ht ▸ hv.least, ht ▸ fun h hh => hv.pending h (hs h hh)⟩, rfl, idle_le_record,
    fun misuse hm => ha.not_misuse (mem_results hm), hsent⟩

/-- What is asked of a handle is refused at once or not at all. -/
theorem work {x : HandleClient α} (hv : visit.Ready) (hh : visit.handles[place]? = some h)
    (hd : deed.path? = none)
    (hs : ∀ fid earlier, fid = h.location.fid ∧ h.kind = .directory → visit.Source deed fid earlier)
    (hx : h.Conduct (fun fid => fid = h.location.fid ∧ h.kind = .directory) h.kind
        visit.session.msize log visit.session log →
      x.Always Wire.Step h visit.session log
        (Handle.Conducted (fun fid => fid = h.location.fid ∧ h.kind = .directory) h.kind
          visit.session.msize log)) :
    Dialogue.Always Wire.Step (visit.work place h x) log (visit.Performed deed log) := by
  have hx := hx (.start (hv.pending h (List.mem_of_getElem? hh)))
  refine Dialogue.Always.bind hx fun ((r, g), session) log' ⟨hr, hg⟩ => .done ?_
  obtain ⟨ht, sent, hlog, hsent⟩ := hg.bound
  have ht : session.msize = visit.session.msize := ht
  refine ⟨⟨ht ▸ hv.least, fun g' hg' => ?_⟩, rfl, idle_le_record, sent, hlog,
    (Wire.Treads.of_forall hsent).mono fun fid earlier _ => hs fid earlier, fun misuse hm => ?_⟩
  · rw [show (visit.record r session _).session.msize = visit.session.msize from ht]
    rcases List.mem_or_eq_of_mem_set hg' with hg' | rfl
    · exact hv.pending g' hg'
    · exact hg.pending
  · have hsame : sent ++ log = log :=
      hlog ▸ hr.resolve_left fun ha => ha.not_misuse (mem_results hm)
    rw [List.append_left_eq_self.1 hsame, Volume.Deed.passed, hd]
    rfl

/-- Where there is no handle nothing is done. -/
theorem absent (hv : visit.Ready) : visit.Performed deed log visit log :=
  ⟨hv, rfl, Nat.le_refl _, [], rfl, trivial, fun _ hm => absurd hm.symm (List.cons_ne_self _ _)⟩

/-- What is dropped is not sent. -/
theorem drop {x : HandleClient α} (hv : visit.Ready)
    (hx : ∀ h, x.Always Wire.Step h visit.session log fun r g t log' =>
      Accepted r ∧ g = h ∧ t = visit.session ∧ log' = log) :
    Dialogue.Always Wire.Step (visit.workIn place x) log (visit.Performed deed log) := by
  rw [Visit.workIn]
  cases hh : visit.handles[place]? with
  | none => exact .done hv.absent
  | some h =>
    refine Dialogue.Always.bind (hx h) fun rgs log' hdropped => .done ?_
    obtain ⟨⟨r, g⟩, session⟩ := rgs
    obtain ⟨ha, hg, ht, hlog⟩ := hdropped
    have hsame : visit.handles.set place g = visit.handles := by
      obtain ⟨hp, rfl⟩ := List.getElem?_eq_some_iff.1 hh
      rw [show g = visit.handles[place] from hg, List.set_getElem_self]
    refine ⟨?_, rfl, idle_le_record, [], hlog, trivial,
      fun misuse hm => absurd (mem_results hm) ha.not_misuse⟩
    rw [hsame, show session = visit.session from ht]
    exact ⟨hv.least, hv.pending⟩

theorem actOn {action : Handle.Action} (hv : visit.Ready) (hh : visit.handles[place]? = some h) :
    Dialogue.Always Wire.Step (visit.actOn place h action) log
      (visit.Performed (.act (.use place action)) log) := by
  have hs (action : Handle.Action) (fid : UInt32) (earlier : Wire)
      (hd : fid = h.location.fid ∧ h.kind = .directory) :
      visit.Source (.act (.use place action)) fid earlier :=
    .inl ⟨place, action, h, rfl, hh, hd.2, hd.1⟩
  have hstart : Session.Bound (fun _ => False) visit.session.msize log visit.session log :=
    .start visit.session log
  cases action with
  | openPath path =>
    have ho : visit.origin? (.act (.use place (.openPath path))) =
        some (Session.pathOrigin h.root h.location path) := by
      rw [origin?, hh]
      rfl
    refine hv.enter ho rfl ?_
    rw [Handle.openPath]
    refine .refuse (fun hempty => ⟨⟨rfl, [], rfl, trivial, .inr ?_⟩, fun _ hr => by cases hr⟩)
      fun _ => Session.always_opened hv.least
    obtain rfl := String.isEmpty_iff.1 hempty
    rw [Session.passed_empty]
    rfl
  | read room => exact hv.work hh rfl (hs _) fun hc => hc.read hv.least
  | readData wanted => exact hv.work hh rfl (hs _) fun hc => hc.readData hv.least
  | readEntry => exact hv.work hh rfl (hs _) fun hc => hc.readEntry hv.least
  | readLink room => exact hv.work hh rfl (hs _) fun hc => hc.readLink hv.least
  | linkTarget => exact hv.work hh rfl (hs _) fun hc => hc.linkTarget hv.least
  | getInfo => exact hv.work hh rfl (hs _) fun hc => hc.getInfo hv.least
  | fsInfo =>
    exact (hv.leave (fun _ h => h) (hstart.fsInfo hv.least)).mono fun _ _ h => h.performed
  | setPosition position => exact hv.work hh rfl (hs _) fun hc => hc.setPosition
  | close =>
    refine Dialogue.Always.mono (hv.leave (fun _ h => List.mem_of_mem_eraseIdx h) ?_)
      fun _ _ h => h.performed
    exact hstart.close hv.least

theorem act {action : Volume.Action} (hv : visit.Ready) :
    Dialogue.Always Wire.Step (visit.act action) log (visit.Performed (.act action) log) := by
  have hstart : Session.Bound (fun _ => False) visit.session.msize log visit.session log :=
    .start visit.session log
  cases action with
  | openRoot =>
    exact hv.enter rfl (Session.passed_empty _) (Session.pathOrigin_self visit.volume.root "" ▸
      Session.always_opened hv.least)
  | openPath path =>
    exact hv.enter rfl rfl (Session.pathOrigin_self visit.volume.root path ▸
      Session.always_opened hv.least)
  | fsInfo =>
    exact (hv.leave (fun _ h => h) (hstart.fsInfo hv.least)).mono fun _ _ h => h.performed
  | use place action =>
    rw [Visit.act]
    cases hh : visit.handles[place]? with
    | some h => exact hv.actOn hh
    | none => exact .done hv.absent

/-- Whatever is done, what it sends goes from the right fids, and if it is refused then
that is known beforehand. -/
theorem perform {deed : Volume.Deed} (hv : visit.Ready) :
    Dialogue.Always Wire.Step (visit.perform deed) log (visit.Performed deed log) := by
  cases deed with
  | act action => exact hv.act
  | write place bytes => exact hv.drop fun h => .pure ⟨.ok _, rfl, rfl, rfl⟩
  | flush place => exact hv.drop fun h => .pure ⟨.ok _, rfl, rfl, rfl⟩
  | delete place => exact hv.drop fun h => .pure ⟨.ok _, rfl, rfl, rfl⟩

/-- To unmount a volume is no mistake. -/
theorem unmount (hv : visit.Ready) :
    Dialogue.Always Wire.Step visit.unmount log (visit.Left log) := by
  have hclunk : Client.Always Wire.Step (Session.Query.clunk visit.volume.root.fid).perform
      visit.session log (Session.Sends (fun _ => False) visit.session.msize log) :=
    (Session.Bound.start visit.session log).plain hv.least rfl
  refine hv.leave (fun _ h => h) (hclunk.attempt.bind_of_yields fun clunked t log' hq => ?_)
  refine Client.Always.shutdown.bind (fun _ u log' h => ?_) fun e u log' h => ?_
  · obtain ⟨rfl, rfl, -⟩ := h
    exact .lift hq
  · obtain ⟨rfl, rfl, he⟩ := h
    exact hq.2.sends (.error (he e rfl))

end Ready

/-- What there may be of a volume, with the record of what has gone over the wire: it
is mounted, whatever may be done is done, and it is unmounted. Handles may be used
after that, too. -/
inductive Reached (config : Config) : (mounted : Bool) → Visit → Wire → Prop where
  | mounted {volume : Volume} {session : Session} {log : Wire} :
    (Volume.mount config).run.Runs Wire.Step [] (.ok (volume, session)) log →
    Reached config true { volume, session } log
  | performed {mounted : Bool} {visit visit' : Visit} {log log' : Wire} {deed : Volume.Deed} :
    Reached config mounted visit log → (visit.perform deed).Runs Wire.Step log visit' log' →
    Reached config mounted visit' log'
  | unmounted {visit visit' : Visit} {log log' : Wire} :
    Reached config true visit log → visit.unmount.Runs Wire.Step log visit' log' →
    Reached config false visit' log'

namespace Reached

variable {config : Config} {mounted : Bool}

theorem ready (h : Reached config mounted visit log) : visit.Ready := by
  induction h with
  | mounted hrun =>
    obtain ⟨trace, htrace⟩ := Trace.runs_of_runs hrun []
    obtain ⟨-, hpassed⟩ := Volume.always_mount config _ _ htrace
    exact ⟨hpassed.known.1.least, fun _ hh => absurd hh List.not_mem_nil⟩
  | performed _ hrun ih => exact (ih.perform _ _ hrun).ready
  | unmounted _ hrun ih => exact (ih.unmount _ _ hrun).ready

end Reached

end Visit

end NineP
