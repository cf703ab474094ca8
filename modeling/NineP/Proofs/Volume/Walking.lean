import NineP.Proofs.FidSource.Cycle
import NineP.Proofs.Handle.Opening
import NineP.Proofs.World.Tree

/-!
# Resolving paths in a tree

With a server that exports a tree, a path is resolved to the node that its names
lead to, and it is not found if they lead nowhere or up from the root:

* `Client.Always.descend_exporting`: a walk of names, one at a time, arrives where
  they lead, and of the fids that were bound before only those on the way change;
* `Session.resolve_follows`: the same for whole paths;
* `Client.Always.resolve_unwritable`: a name that is too long to be counted is
  refused before anything is said.
-/

namespace NineP

open Session

variable {Node : Type} {tree : Tree Node} {initial : UInt32 → Option Node} {msize : UInt32}
  {s : Session} {p q : Peer} {n : Node}

/-- The fids that are bound at a server. -/
def Tree.bound (tree : Tree Node) (initial : UInt32 → Option Node) (p : Peer) :
    UInt32 → Option Node :=
  tree.bindings initial (Peer.said p.log)

/-- The fid of a location is bound to a node, and its identity is the node's. -/
structure Tree.At (tree : Tree Node) (initial : UInt32 → Option Node) (p : Peer)
    (location : Location) (n : Node) : Prop where
  bound : tree.bound initial p location.fid = some n
  qid : location.qid = tree.qid n

/-- What a request and its reply make of the fids that are bound. -/
theorem Session.Heard.bound {request answer : Body} (tree : Tree Node)
    (initial : UInt32 → Option Node) (h : Heard msize p request answer q) :
    tree.bound initial q = tree.grant (tree.bound initial p) request answer := by
  rw [Tree.bound, h.said]
  rfl

/-- The result of a walk is what it makes of the reply. -/
theorem Session.eq_ok_of_rwalk {r : Except Error (List Qid)} {qids : List Qid}
    (h : Body.rwalk <$> r = .ok (.rwalk qids)) : r = .ok qids := by
  cases r with
  | ok qids' => rw [Body.rwalk.inj (Except.ok.inj h)]
  | error e => cases h

theorem Session.eq_error_of_rwalk {r : Except Error (List Qid)} {e : Error}
    (h : Body.rwalk <$> r = .error e) : r = .error e := by
  cases r with
  | ok qids => cases h
  | error e' => exact congrArg _ (Except.error.inj h)

namespace Client.Always

/-- A walk of one name is granted if the name leads to a node. -/
theorem walk_exporting {fid : UInt32} {name : String} (newfid : UInt32) (hs : Settled msize s p)
    (hb : tree.bound initial p fid = some n)
    (hn : name.utf8ByteSize ≤ Codec.maxTextSize ∧ name.utf8ByteSize ≤ msize.toNat - 19) :
    Always (Peer.Step (.prompt msize (.exporting tree initial)))
      (Session.walk fid newfid [name]) s p fun r t q => t = s ∧ Settled msize s q ∧
        ((tree.step n name = none ∧ r = .error (.server .notFound) ∧
            tree.bound initial q = tree.bound initial p) ∨
          ∃ c, tree.step n name = some c ∧ r = .ok [tree.qid c] ∧
            tree.bound initial q = Function.update (tree.bound initial p) newfid (some c)) := by
  have hop := Operation.heard (.exporting tree initial) (.walk fid newfid [name]) hs
    (Operation.fits_walk_one hn.1 (hs.agreed ▸ hn.2) (hs.agreed ▸ hs.least)) rfl
  refine hop.of_map.mono fun r t q ⟨ht, answer, hheard, hallowed, _, hr⟩ => ?_
  refine ⟨ht, hs.heard hheard, ?_⟩
  have hanswer : answer = tree.answer n name := hallowed n hb
  have hbound := hheard.bound tree initial
  rw [hanswer] at hbound hr
  cases hstep : tree.step n name with
  | none =>
    have hmiss : tree.answer n name = .rlerror 2 := by rw [Tree.answer, hstep]
    rw [hmiss] at hbound hr
    exact .inl ⟨rfl, eq_error_of_rwalk hr, hbound⟩
  | some c =>
    have hgrant : tree.answer n name = .rwalk [tree.qid c] := by rw [Tree.answer, hstep]
    rw [hgrant] at hbound hr
    have hsteps : (tree.bound initial p fid).bind (fun n => tree.steps n [name]) = some c := by
      rw [hb, Option.bind_some, Tree.steps, hstep]
      rfl
    refine .inr ⟨c, rfl, eq_ok_of_rwalk hr, ?_⟩
    rw [hbound, ← hsteps]
    rfl

/-- A walk of no names binds the new fid to the same node. -/
theorem clone_exporting {fid : UInt32} (newfid : UInt32) (hs : Settled msize s p)
    (hb : tree.bound initial p fid = some n) :
    Always (Peer.Step (.prompt msize (.exporting tree initial)))
      (Session.walk fid newfid []) s p fun r t q => t = s ∧ Settled msize s q ∧ r = .ok [] ∧
        tree.bound initial q = Function.update (tree.bound initial p) newfid (some n) := by
  have hop := Operation.heard (.exporting tree initial) (.walk fid newfid []) hs
    (Operation.fits_walk_nil (hs.agreed ▸ hs.least)) rfl
  refine hop.of_map.mono fun r t q ⟨ht, answer, hheard, hallowed, _, hr⟩ => ?_
  have hanswer : answer = .rwalk [] := hallowed (by
    show (tree.bound initial p fid).isSome = true
    rw [hb]
    rfl)
  have hbound := hheard.bound tree initial
  rw [hanswer] at hbound hr
  have hsteps : (tree.bound initial p fid).bind (fun n => tree.steps n []) = some n := by
    rw [hb, Option.bind_some, Tree.steps]
  refine ⟨ht, hs.heard hheard, eq_ok_of_rwalk hr, ?_⟩
  rw [hbound, ← hsteps]
  rfl

/-- A fid that is given back is bound no more, and the others are as before, with
whatever replies. -/
theorem releaseAny_bound {replies : Replies} (tree : Tree Node) (initial : UInt32 → Option Node)
    (owned : Option UInt32) (hs : Settled msize s p) :
    Always (Peer.Step (.prompt msize replies)) (Session.releaseAny owned) s p
      (Yields fun _ t q => t = s ∧ Settled msize s q ∧ ∀ fid,
        tree.bound initial q fid = if owned = some fid then none else tree.bound initial p fid) := by
  cases owned with
  | none => exact .pure ⟨(), rfl, rfl, hs, fun _ => rfl⟩
  | some fid =>
    refine (returned hs fid).mono fun r t q ⟨u, hr, ht, answer, hheard, _⟩ => ?_
    refine ⟨u, hr, ht, hs.heard hheard, fun other => ?_⟩
    rw [hheard.bound tree initial]
    by_cases he : fid = other
    · subst he
      rw [if_pos rfl]
      exact Function.update_self ..
    · rw [if_neg fun h => he (Option.some.inj h)]
      exact Function.update_of_ne (Ne.symm he) ..

theorem releaseAny_exporting (owned : Option UInt32) (hs : Settled msize s p) :
    Always (Peer.Step (.prompt msize (.exporting tree initial))) (Session.releaseAny owned) s p
      (Yields fun _ t q => t = s ∧ Settled msize s q ∧
        ∀ fid, owned ≠ some fid → tree.bound initial q fid = tree.bound initial p fid) :=
  (releaseAny_bound tree initial owned hs).mono fun _ _ _ ⟨u, hr, ht, hsettled, hbound⟩ =>
    ⟨u, hr, ht, hsettled, fun fid hne => (hbound fid).trans (if_neg hne)⟩

/-- A step of one name, after which the fid of the step before is given back. The
new fid, another one, stays bound to where the name has led. -/
theorem step_exporting {α : Type} {owned : Option UInt32} {fid newfid : UInt32} {name : String}
    {f : Except Error (List Qid) → Client α} {Q : Except Error α → Session → Peer → Prop}
    (hs : Settled msize s p) (hb : tree.bound initial p fid = some n)
    (hn : name.utf8ByteSize ≤ Codec.maxTextSize ∧ name.utf8ByteSize ≤ msize.toNat - 19)
    (hnew : owned ≠ some newfid)
    (hmiss : ∀ q, tree.step n name = none → Settled msize s q →
      (∀ other, owned ≠ some other → tree.bound initial q other = tree.bound initial p other) →
      Always (Peer.Step (.prompt msize (.exporting tree initial)))
        (f (.error (.server .notFound))) s q Q)
    (hhit : ∀ q c, tree.step n name = some c → Settled msize s q →
      tree.At initial q ⟨newfid, tree.qid c⟩ c →
      (∀ other, owned ≠ some other → other ≠ newfid →
        tree.bound initial q other = tree.bound initial p other) →
      Always (Peer.Step (.prompt msize (.exporting tree initial))) (f (.ok [tree.qid c])) s q Q) :
    Always (Peer.Step (.prompt msize (.exporting tree initial)))
      (Client.attempt (Session.walk fid newfid [name]) >>= fun r =>
        Session.releaseAny owned >>= fun _ => f r) s p Q := by
  refine (walk_exporting newfid hs hb hn).attempt.bind_of_yields fun r t q ⟨ht, hsettled, hr⟩ => ?_
  subst ht
  refine (releaseAny_exporting owned hsettled).bind_of_yields
    fun _ t q' ⟨ht, hsettled', hkept⟩ => ?_
  subst ht
  rcases hr with ⟨hnone, rfl, hbound⟩ | ⟨c, hsome, rfl, hbound⟩
  · refine hmiss q' hnone hsettled' fun other hother => ?_
    rw [hkept other hother, hbound]
  · refine hhit q' c hsome hsettled' ⟨?_, rfl⟩ fun other hother hne => ?_
    · rw [hkept newfid hnew, hbound]
      exact Function.update_self ..
    · rw [hkept other hother, hbound]
      exact Function.update_of_ne hne ..

/-- A walk of a name that is too long to be counted is not sent. -/
theorem walk_unwritable {M : Manners} {fid newfid : UInt32} {name : String}
    (hn : Codec.maxTextSize < name.utf8ByteSize) :
    Always (Peer.Step M) (Session.walk fid newfid [name]) s p fun r _ q =>
      r = .error (.invalidParameter (.unwritable .textTooLong)) ∧ q = p := by
  have hrefused : requestFrame s.msize ⟨sessionTag, .twalk fid newfid [name]⟩ s.msize =
      .error (.invalidParameter (.unwritable .textTooLong)) := by
    have henc : Frame.encode ⟨sessionTag, .twalk fid newfid [name]⟩ = .error .textTooLong :=
      Frame.encode_eq_error trivial fun htexts =>
        Nat.not_le.2 hn (htexts name List.mem_cons_self)
    rw [requestFrame, henc]
    rfl
  refine call.bind (fun b t q h => ?_) fun e t q h => ?_
  · obtain ⟨-, r', htransacted, hr⟩ := h
    obtain ⟨rfl, -⟩ := htransacted.of_refused hrefused
    cases hr
  · obtain ⟨-, r', htransacted, hr⟩ := h
    obtain ⟨rfl, hq⟩ := htransacted.of_refused hrefused
    exact ⟨congrArg _ (Except.error.inj hr), hq⟩

end Client.Always

/-! ## Paths -/

/-- A walk has arrived where it was to lead, if that is anywhere. Of the fids that
were bound only `owned` and those in `taken` may have changed. -/
structure Tree.Arrived (tree : Tree Node) (initial : UInt32 → Option Node) (msize : UInt32)
    (owned : Option UInt32) (taken : List UInt32) (destination : Option Node) (p : Peer)
    (r : Except Error Location) (t : Session) (q : Peer) : Prop where
  settled : Settled msize t q
  kept : ∀ fid, owned ≠ some fid → fid ∉ taken →
    tree.bound initial q fid = tree.bound initial p fid
  found : ∀ n, destination = some n → ∃ location, r = .ok location ∧ tree.At initial q location n
  missed : destination = none → r = .error (.server .notFound)

/-- A walk that leads nowhere changes at most the fid that it gives back. -/
theorem Tree.Arrived.nowhere {owned : Option UInt32} {taken : List UInt32}
    {destination : Option Node} (hd : destination = none) (hs : Settled msize s q)
    (hk : ∀ fid, owned ≠ some fid → tree.bound initial q fid = tree.bound initial p fid) :
    tree.Arrived initial msize owned taken destination p (.error (.server .notFound)) s q where
  settled := hs
  kept fid hf _ := hk fid hf
  found n hn := by
    rw [hd] at hn
    cases hn
  missed _ := rfl

/-- Whether a name leads up from the top is told by the identity of the node. -/
theorem Tree.up_iff {top : Node} {current : Location} {name : String}
    (hc : current.qid = tree.qid n) :
    (name == Path.parent && current.qid.sameObject (tree.qid top)) = true ↔
      name = Path.parent ∧ n = top := by
  rw [Bool.and_eq_true, beq_iff_eq, Qid.sameObject_iff, hc]
  exact and_congr_right fun _ => ⟨tree.path_injective, fun h => by rw [h]⟩

/-- Locations that are taken for the same are the same node. -/
theorem Tree.At.eq_of_same {root start : Location} {a b : Node} (hroot : tree.At initial p root a)
    (hstart : tree.At initial p start b)
    (h : (start.fid == root.fid || start.qid.sameObject root.qid) = true) : b = a := by
  rcases (Bool.or_eq_true ..).mp h with hfid | hqid
  · have hbound := hstart.bound
    rw [beq_iff_eq.1 hfid, hroot.bound] at hbound
    exact (Option.some.inj hbound).symm
  · rw [Qid.sameObject_iff, hstart.qid, hroot.qid] at hqid
    exact tree.path_injective hqid

/-- A path is taken from one of two locations. -/
theorem Tree.At.ite {root start : Location} {a b : Node} (hroot : tree.At initial p root a)
    (hstart : tree.At initial p start b) (c : Prop) [Decidable c] :
    tree.At initial p (if c then root else start) (if c then a else b) := by
  split
  · exact hroot
  · exact hstart

/-- A path that is refused leads nowhere: it starts at the root, by its separator or by where
it is taken from, and climbs above it. -/
theorem Tree.follow_of_plan_error [DecidableEq Node] {root start : Location} {a b : Node}
    {path : String} {e : Error} (hroot : tree.At initial p root a) (hstart : tree.At initial p start b)
    (hplan : Path.plan path (start.fid == root.fid || start.qid.sameObject root.qid) = .error e) :
    tree.follow a (if Path.isAbsolute path then a else b) (Path.components path) = none := by
  rw [Path.plan] at hplan
  split at hplan
  · rename_i hclimb
    rw [Bool.and_eq_true, Bool.or_eq_true, Bool.not_eq_true'] at hclimb
    have horigin : (if Path.isAbsolute path then a else b) = a := by
      rcases hclimb.1 with habsolute | hsame
      · rw [if_pos habsolute]
      · rw [hroot.eq_of_same hstart hsame, ite_self]
    rw [horigin]
    exact Tree.follow_of_climbing .top hclimb.2
  · cases hplan

/-- A path of no names arrives where it starts, at a clone of the fid. -/
theorem Client.Always.cloned_exporting {origin : Location} (hs : Settled msize s p)
    (ho : tree.At initial p origin n) :
    Always (Peer.Step (.prompt msize (.exporting tree initial)))
      (do
        let fid ← Client.freshFid
        let _ ← Session.walk origin.fid fid []
        return { fid, qid := origin.qid })
      s p (tree.Arrived initial msize none (s.fids.takeMany 1) (some n) p) := by
  let fid := s.fids.take.1
  refine counted ?_
  refine (clone_exporting fid (hs.counted s.fids.take.2) ho.bound).bind
    (fun qids t q ⟨ht, hsettled, _, hbound⟩ => ?_) fun e t q ⟨_, _, hr, _⟩ => by cases hr
  refine .pure ⟨ht ▸ hsettled, fun other _ htaken => ?_, fun n' hn => ?_,
    fun hnone => by cases hnone⟩
  · rw [hbound]
    exact Function.update_of_ne (fun he => htaken (List.mem_cons.2 (.inl he))) ..
  · rw [← Option.some.inj hn]
    refine ⟨_, rfl, ?_, ho.qid⟩
    rw [hbound]
    exact Function.update_self ..

variable [DecidableEq Node]

namespace Client.Always

/-- A walk of names arrives where they lead. The fid of each step is bound to the
node that the step has come to, and survives the return of the fid before it. -/
theorem descend_exporting {top : Node} {owned : Option UInt32} {current : Location}
    {names : List String} (hs : Settled msize s p) (hc : tree.At initial p current n)
    (hnames : ∀ name ∈ names, name.utf8ByteSize ≤ Codec.maxTextSize ∧
      name.utf8ByteSize ≤ msize.toNat - 19)
    (howned : owned ≠ some s.fids.take.1) :
    Always (Peer.Step (.prompt msize (.exporting tree initial)))
      (Session.descend (tree.qid top) owned current names) s p
      (tree.Arrived initial msize owned (s.fids.takeMany names.length)
        (tree.follow top n names) p) := by
  induction names generalizing owned current n s p with
  | nil =>
    refine .pure ⟨hs, fun _ _ _ => rfl, fun n' hn => ⟨current, rfl, ?_⟩,
      fun hnone => by cases hnone⟩
    rw [← Option.some.inj hn]
    exact hc
  | cons name names ih =>
    refine .descend_cons (fun hup => ?_) fun hup => ?_
    · refine (releaseAny_exporting owned hs).mono fun _ t q ⟨_, hr, ht, hsettled, hkept⟩ => ?_
      subst ht
      exact ⟨(), hr, .nowhere (if_pos ((Tree.up_iff hc.qid).1 hup)) hsettled hkept⟩
    · have hfollow : tree.follow top n (name :: names) =
          (tree.step n name).bind fun c => tree.follow top c names :=
        if_neg fun h => hup ((Tree.up_iff hc.qid).2 h)
      rw [hfollow]
      refine counted (step_exporting (hs.counted s.fids.take.2) hc.bound
        (hnames name List.mem_cons_self) howned (fun q hnone hsettled hkept => ?_)
        fun q c hsome hsettled hat hkept => ?_)
      · rw [hnone]
        exact .throw (.nowhere rfl hsettled hkept)
      · rw [hsome]
        have hnext : some s.fids.take.1 ≠ some s.fids.take.2.take.1 := fun he =>
          s.fids.take_take_ne (Option.some.inj he).symm
        refine (ih hsettled hat (fun name hname => hnames name (List.mem_cons_of_mem _ hname))
          hnext).mono fun r t q' harrived => ?_
        refine ⟨harrived.settled, fun other hother htaken => ?_, harrived.found, harrived.missed⟩
        obtain ⟨hne, hrest⟩ := not_or.1 (fun h => htaken (List.mem_cons.2 h))
        rw [harrived.kept other (fun he => hne (Option.some.inj he).symm) hrest]
        exact hkept other hother hne

/-- A path leads from the root or from where it starts, and nowhere if it climbs
above the root on its way. -/
theorem resolve_exporting {root start : Location} {a b : Node} {path : String}
    (hs : Settled msize s p) (hroot : tree.At initial p root a) (hstart : tree.At initial p start b)
    (hnames : ∀ name ∈ Path.components path, name.utf8ByteSize ≤ Codec.maxTextSize ∧
      name.utf8ByteSize ≤ msize.toNat - 19) :
    Always (Peer.Step (.prompt msize (.exporting tree initial))) (Session.resolve root start path)
      s p (tree.Arrived initial msize none
        (s.fids.takeMany (max 1 (Path.components path).length))
        (tree.follow a (if Path.isAbsolute path then a else b) (Path.components path)) p) := by
  let origin := if Path.isAbsolute path then root else start
  have horigin : tree.At initial p origin (if Path.isAbsolute path then a else b) :=
    hroot.ite hstart _
  refine .resolve_of_descend (fun hplan => ?_) (fun _ hnil => ?_) fun _ hne => ?_
  · exact .nowhere (Tree.follow_of_plan_error hroot hstart hplan) hs fun _ _ => rfl
  · rw [hnil]
    exact cloned_exporting hs horigin
  · have hlen : max 1 (Path.components path).length = (Path.components path).length :=
      Nat.max_eq_right (List.length_pos_iff.2 hne)
    rw [hlen, hroot.qid]
    exact descend_exporting hs horigin hnames fun he => by cases he

/-- A name that is too long to be counted is refused as a path, and nothing is
said. -/
theorem resolve_unwritable {M : Manners} {root start : Location} {path name : String}
    (hpath : Path.components path = [name]) (hn : Codec.maxTextSize < name.utf8ByteSize) :
    Always (Peer.Step M) (Session.resolve root start path) s p fun r _ q =>
      r = .error (.invalidParameter (.unwritable .textTooLong)) ∧ q = p := by
  have hup : name ≠ Path.parent := by
    rintro rfl
    exact absurd hn (by decide)
  have hbelow : Path.staysBelow 0 [name] = true := by
    rw [Path.staysBelow.eq_def]
    simp only [hup, if_false, Path.staysBelow]
  have hplan : Path.plan path (start.fid == root.fid || start.qid.sameObject root.qid) =
      .ok { fromRoot := Path.isAbsolute path, names := [name] } := by
    rw [Path.plan, hpath, hbelow, Bool.not_true, Bool.and_false]
    rfl
  refine lift_bind_ok hplan ?_
  let origin := if Path.isAbsolute path then root else start
  show Always _ (Session.descend root.qid none origin [name]) _ _ _
  rw [Session.descend, if_neg (by rw [beq_false_of_ne hup]; exact Bool.false_ne_true)]
  refine counted (walk_unwritable hn |>.attempt.bind_of_yields fun step t q ⟨hstep, hq⟩ => ?_)
  rw [hstep]
  exact .throw ⟨rfl, hq⟩

end Client.Always

namespace Session

/-- What a path resolves to is the node that its names lead to. There is a result,
with a fid that is bound to that node and with the node's identity, exactly if
there is such a node; any other path is not found. -/
def Resolves (tree : Tree Node) (initial : UInt32 → Option Node) (msize : UInt32) (s : Session)
    (p : Peer) (root start : Location) (path : String) (destination : Option Node) : Prop :=
  (∃ r t q, ((resolve root start path).runIn s).Runs
    (Peer.Step (.prompt msize (.exporting tree initial))) p (r, t) q) ∧
  ∀ r t q, ((resolve root start path).runIn s).Runs
      (Peer.Step (.prompt msize (.exporting tree initial))) p (r, t) q →
    ((∃ location, r = .ok location) ↔ destination.isSome) ∧
    (∀ location, r = .ok location → ∃ n, destination = some n ∧ tree.At initial q location n) ∧
    ∀ e, r = .error e → e = .server .notFound

/-- A fid is bound to the same node after a path has been resolved as before. -/
def Keeps (tree : Tree Node) (initial : UInt32 → Option Node) (msize : UInt32) (s : Session)
    (p : Peer) (root start : Location) (path : String) (fid : UInt32) : Prop :=
  ∀ r t q, ((resolve root start path).runIn s).Runs
      (Peer.Step (.prompt msize (.exporting tree initial))) p (r, t) q →
    tree.bound initial q fid = tree.bound initial p fid

/-- Every path whose names can be sent is resolved to where they lead, from the root
if it is absolute and else from the start. Every fid is bound as before that is not
handed out on the way. -/
theorem resolve_follows {root start : Location} {a b : Node} {path : String}
    (hs : Settled msize s p) (hroot : tree.At initial p root a) (hstart : tree.At initial p start b)
    (hnames : ∀ name ∈ Path.components path, name.utf8ByteSize ≤ 65535 ∧
      name.utf8ByteSize ≤ msize.toNat - 19) :
    Resolves tree initial msize s p root start path
        (tree.follow a (if Path.isAbsolute path then a else b) (Path.components path)) ∧
      ∀ fid ∉ s.fids.takeMany (max 1 (Path.components path).length),
        Keeps tree initial msize s p root start path fid := by
  have arrives := Client.Always.resolve_exporting hs hroot hstart hnames
  refine ⟨⟨?_, fun r t q hrun => ?_⟩, fun fid hfresh r t q hrun =>
    (arrives (r, t) q hrun).kept fid (fun he => by cases he) hfresh⟩
  · obtain ⟨⟨r, t⟩, q, hrun⟩ := Peer.runs_total (.prompt msize (.exporting tree initial))
      ((resolve root start path).runIn s) p
    exact ⟨r, t, q, hrun⟩
  have harrived := arrives (r, t) q hrun
  cases hd : tree.follow a (if Path.isAbsolute path then a else b) (Path.components path) with
  | none =>
    obtain rfl := harrived.missed hd
    exact ⟨⟨fun ⟨_, hl⟩ => (by cases hl), fun hsome => (by cases hsome)⟩,
      fun _ hl => (by cases hl), fun e he => (Except.error.inj he).symm⟩
  | some n =>
    obtain ⟨location, rfl, hat⟩ := harrived.found n hd
    refine ⟨⟨fun _ => rfl, fun _ => ⟨location, rfl⟩⟩, fun location' hl => ?_,
      fun e he => (by cases he)⟩
    obtain rfl := Except.ok.inj hl
    exact ⟨n, rfl, hat⟩

/-! ## A tree of two nodes -/

/-- A root and a child of the name `a`. -/
def twoNodes : Tree Bool where
  root := false
  parent _ := false
  child? n name := if n = false ∧ name = "a" then some true else none
  qid n := { path := if n then 2 else 1 }
  parent_root := rfl
  parent_of_child {n c name} h := by
    split at h
    · rename_i hn
      exact hn.1.symm
    · cases h
  path_injective {m n} h := by
    cases m <;> cases n <;> first | rfl | exact absurd h (by decide)

/-- Two fids are bound to the root. -/
def bothRoot (fid : UInt32) : Option Bool := if fid = 100 ∨ fid = 101 then some false else none

def rootLocation (fid : UInt32) : Location := ⟨fid, { path := 1 }⟩

/-- A path down, up and down again. -/
theorem resolve_follows_down_up_down :
    Settled 8192 { msize := 8192 } {} ∧
      twoNodes.At bothRoot {} (rootLocation 100) false ∧
      twoNodes.At bothRoot {} (rootLocation 101) false ∧
      (∀ name ∈ Path.components "a/../a", name.utf8ByteSize ≤ 65535 ∧
        name.utf8ByteSize ≤ (8192 : UInt32).toNat - 19) ∧
      Resolves twoNodes bothRoot 8192 { msize := 8192 } {} (rootLocation 100)
        (rootLocation 101) "a/../a" (some true) ∧
      Keeps twoNodes bothRoot 8192 { msize := 8192 } {} (rootLocation 100)
        (rootLocation 101) "a/../a" 100 ∧
      Keeps twoNodes bothRoot 8192 { msize := 8192 } {} (rootLocation 100)
        (rootLocation 101) "a/../a" 101 := by
  have hs : Settled 8192 { msize := 8192 } {} := ⟨rfl, by decide, rfl⟩
  have hroot : twoNodes.At bothRoot {} (rootLocation 100) false := ⟨rfl, rfl⟩
  have hstart : twoNodes.At bothRoot {} (rootLocation 101) false := ⟨rfl, rfl⟩
  have hnames : ∀ name ∈ Path.components "a/../a", name.utf8ByteSize ≤ 65535 ∧
      name.utf8ByteSize ≤ (8192 : UInt32).toNat - 19 := by decide +kernel
  have hd : twoNodes.follow false (if Path.isAbsolute "a/../a" then false else false)
      (Path.components "a/../a") = some true := by decide +kernel
  obtain ⟨hresolves, hkeeps⟩ := resolve_follows hs hroot hstart hnames
  rw [hd] at hresolves
  exact ⟨hs, hroot, hstart, hnames, hresolves, hkeeps 100 (by decide +kernel),
    hkeeps 101 (by decide +kernel)⟩

/-- A name of letters. -/
def letters (n : Nat) : String := String.ofList (List.replicate n 'a')

theorem utf8ByteSize_letters (n : Nat) : (letters n).utf8ByteSize = n := by
  have hone : Char.utf8Size 'a' = 1 := rfl
  rw [letters, Text.utf8ByteSize_replicate, hone, Nat.mul_one]

theorem components_letters {n : Nat} (h : 2 ≤ n) : Path.components (letters n) = [letters n] := by
  refine Path.components_of_isName (fun c hc => ?_) ?_
  · rw [List.eq_of_mem_replicate hc]
    rfl
  · match n, h with
    | n + 2, _ => rfl

/-- Not every name that leaves room for the rest of its request can be counted, and
the start of a path is bound to another node if its fid is handed out once more. -/
theorem not_resolves_long_name_nor_keeps_taken_fid :
    (Settled 131072 { msize := 131072 } {} ∧
      twoNodes.At bothRoot {} (rootLocation 100) false ∧
      twoNodes.At bothRoot {} (rootLocation 101) false ∧
      (∀ name ∈ Path.components (letters 65536),
        name.utf8ByteSize ≤ (131072 : UInt32).toNat - 19) ∧
      ¬ Resolves twoNodes bothRoot 131072 { msize := 131072 } {}
        (rootLocation 100) (rootLocation 101) (letters 65536)
        (twoNodes.follow false (if Path.isAbsolute (letters 65536) then false else false)
          (Path.components (letters 65536)))) ∧
    (Settled 8192 { msize := 8192, fids := { next := 101 } } {} ∧
      twoNodes.At bothRoot {} (rootLocation 100) false ∧
      twoNodes.At bothRoot {} (rootLocation 101) false ∧
      (∀ name ∈ Path.components "a", name.utf8ByteSize ≤ (8192 : UInt32).toNat - 19) ∧
      ¬ Keeps twoNodes bothRoot 8192 { msize := 8192, fids := { next := 101 } } {}
        (rootLocation 100) (rootLocation 101) "a" 101) := by
  have hroot : twoNodes.At bothRoot {} (rootLocation 100) false := ⟨rfl, rfl⟩
  have hstart : twoNodes.At bothRoot {} (rootLocation 101) false := ⟨rfl, rfl⟩
  have hcomponents : Path.components (letters 65536) = [letters 65536] :=
    components_letters (by decide)
  have hsize := utf8ByteSize_letters 65536
  refine ⟨⟨⟨rfl, by decide, rfl⟩, hroot, hstart, ?_, ?_⟩, ⟨rfl, by decide, rfl⟩, hroot, hstart,
    by decide +kernel, ?_⟩
  · rw [hcomponents]
    intro name hname
    rw [List.mem_singleton.1 hname, hsize]
    decide
  · rintro ⟨⟨r, t, q, hrun⟩, hresults⟩
    have hrefused := Client.Always.resolve_unwritable hcomponents
      (by rw [hsize]; decide) (r, t) q hrun
    cases (hresults r t q hrun).2.2 _ hrefused.1
  · intro hkeeps
    let s : Session := { msize := 8192, fids := { next := 101 } }
    obtain ⟨q, hrun⟩ : ∃ q, ((resolve (rootLocation 100) (rootLocation 101) "a").runIn s).Runs
        (Peer.Step (.prompt 8192 (.exporting twoNodes bothRoot))) {}
        (.ok ⟨101, { path := 2 }⟩, { s with fids := { next := 102 } }) q :=
      (Tree.served twoNodes bothRoot).exists_runs (by decide +kernel)
    have hs : Settled 8192 s {} := ⟨rfl, by decide, rfl⟩
    have hnames : ∀ name ∈ Path.components "a", name.utf8ByteSize ≤ Codec.maxTextSize ∧
        name.utf8ByteSize ≤ (8192 : UInt32).toNat - 19 := by decide +kernel
    have harrived := Client.Always.resolve_exporting hs hroot hstart hnames _ q hrun
    obtain ⟨location, hlocation, hat⟩ := harrived.found true (by decide +kernel)
    obtain rfl := Except.ok.inj hlocation
    exact absurd ((hkeeps _ _ q hrun).symm.trans hat.bound) (by decide)

end Session

end NineP
