import NineP.Proofs.Path.Names
import NineP.Proofs.Session.Refused
import NineP.Proofs.Volume.Balance
import NineP.Proofs.Volume.Walking
import NineP.Proofs.World.Exclusive

/-!
# Landing on a fid of one's own

With a server that exports a tree and binds no fid twice, a path is resolved to the node
that its names lead to if the fids that it takes are free. Fids that are in use stay as
they are:

* `Tree.Walked`: what comes of one walk, and `Client.Always.walk_exclusive`, that it does;
* `Tree.Vacant`: the next fids are free, and `Tree.Ample.vacant`, that they are until the
  count comes round;
* `Client.Always.descend_exclusive`: a walk of names, one at a time, lands where they lead;
* `Client.Always.resolve_exclusive`: the same for whole paths;
* `Client.Always.opened_exclusive`: a handle that is opened by a path is bound to the node
  that the path leads to.
-/

namespace NineP

open Session

variable {Node : Type} {tree : Tree Node} {initial : UInt32 → Option Node} {msize : UInt32}
  {s : Session} {p q : Peer} {n : Node}

/-- The steps of a server that exports a tree and binds no fid twice. -/
abbrev Tree.Hosts (tree : Tree Node) (initial : UInt32 → Option Node) (msize : UInt32) :
    Peer → Call → Answer → Peer → Prop :=
  Peer.Step (.prompt msize (.exclusive tree initial))

/-! ## Names in a row -/

/-- Names lead where the first of them lead and then the others from there. -/
theorem Tree.follow_append [DecidableEq Node] (tree : Tree Node) (top n : Node)
    (front back : List String) :
    tree.follow top n (front ++ back) =
      (tree.follow top n front).bind fun m => tree.follow top m back := by
  induction front generalizing n with
  | nil => rfl
  | cons name front ih =>
    rw [List.cons_append, follow, follow]
    by_cases hup : name = Path.parent ∧ n = top
    · rw [if_pos hup, if_pos hup]
      rfl
    · rw [if_neg hup, if_neg hup]
      cases tree.step n name with
      | none => rfl
      | some c => exact ih c

theorem Tree.steps_singleton (tree : Tree Node) (n : Node) (name : String) :
    tree.steps n [name] = tree.step n name := by
  cases h : tree.step n name <;> simp [steps, h]

/-! ## Walks -/

/-- Whether all names can be walked. -/
def Session.Passable (msize : UInt32) (names : List String) : Prop :=
  ∀ name ∈ names, passable msize name = true

/-- What comes of a walk of at most one name from a fid that is bound to `n`: it is
refused if the names are too long, or lead nowhere, or the new fid is in use. -/
inductive Tree.Walked (tree : Tree Node) (initial : UInt32 → Option Node) (msize : UInt32)
    (n : Node) (newfid : UInt32) (names : List String) (p : Peer) :
    Except Error (List Qid) → Peer → Prop where
  | refused {e : Error} {q : Peer} :
    (Passable msize names → tree.bound initial p newfid = none → tree.steps n names = none) →
    tree.bound initial q = tree.bound initial p →
    Walked tree initial msize n newfid names p (.error e) q
  | granted {c : Node} {q : Peer} : Passable msize names → tree.steps n names = some c →
    tree.bound initial p newfid = none →
    tree.bound initial q = Function.update (tree.bound initial p) newfid (some c) →
    Walked tree initial msize n newfid names p (.ok (names.map fun _ => tree.qid c)) q

/-- What a reply to a walk makes of its result and of the fids that are bound. -/
theorem Tree.walked_of_answer {fid newfid : UInt32} {names : List String} {answer : Body}
    {r : Except Error (List Qid)} (hp : Passable msize names)
    (hb : tree.bound initial p fid = some n)
    (hanswer : if (tree.bound initial p newfid).isSome then answer.type = .rlerror
      else answer = tree.granted n names)
    (hbound : tree.bound initial q =
      tree.grant (tree.bound initial p) (.twalk fid newfid names) answer)
    (hr : Body.rwalk <$> r = (Operation.walk fid newfid names).judge s .rwalk answer) :
    tree.Walked initial msize n newfid names p r q := by
  have hmissed (ecode : UInt32) (ha : answer = .rlerror ecode)
      (hwhy : tree.bound initial p newfid = none → tree.steps n names = none) :
      tree.Walked initial msize n newfid names p r q := by
    subst ha
    rw [eq_error_of_rwalk hr]
    exact .refused (fun _ => hwhy) hbound
  cases hnew : tree.bound initial p newfid with
  | some m =>
    rw [hnew] at hanswer
    cases answer with
    | rlerror ecode => exact hmissed ecode rfl fun hfree => by cases hnew.symm.trans hfree
    | _ => cases hanswer
  | none =>
    rw [hnew] at hanswer
    have hanswer : answer = tree.granted n names := hanswer
    cases hsteps : tree.steps n names with
    | none =>
      rw [Tree.granted, hsteps] at hanswer
      exact hmissed 2 hanswer fun _ => hsteps
    | some c =>
      rw [Tree.granted, hsteps] at hanswer
      subst hanswer
      have hjudge : (Operation.walk fid newfid names).judge s .rwalk
          (.rwalk (names.map fun _ => tree.qid c)) =
            .ok (.rwalk (names.map fun _ => tree.qid c)) := by
        simp [Operation.judge]
      rw [eq_ok_of_rwalk (hr.trans hjudge)]
      refine .granted hp hsteps hnew ?_
      rw [hbound, Tree.grant, if_pos (List.length_map _), hb, Option.bind_some, hsteps]

namespace Client.Always

/-- A name that cannot be walked is refused before anything is said. -/
theorem walk_unpassable {fid newfid : UInt32} {names : List String} (hlen : names.length ≤ 1)
    (hp : ¬ Passable s.msize names) :
    Always (tree.Hosts initial msize) (Session.walk fid newfid names) s p fun r t q =>
      t = s ∧ q = p ∧ ∃ e, r = .error e := by
  have hunsent : ¬ (Query.walk fid newfid names).Sendable s := by
    intro hsend
    match names, hlen with
    | [], _ => exact hp fun _ hm => by cases hm
    | [name], _ =>
      exact hp fun other hm => List.mem_singleton.1 hm ▸ Query.sendable_step_iff.1 hsend
  show Always _ (Query.walk fid newfid names).perform s p _
  exact Query.always (fun e _ => ⟨rfl, rfl, e, rfl⟩) fun request hf =>
    absurd (Query.sendable_of_sends hf) hunsent

/-- One walk, of a name or of none, that may also be too long to be sent. -/
theorem walk_exclusive {fid newfid : UInt32} {names : List String} (hlen : names.length ≤ 1)
    (hs : Settled msize s p) (hb : tree.bound initial p fid = some n) :
    Always (tree.Hosts initial msize) (Session.walk fid newfid names) s p fun r t q =>
      t = s ∧ Settled msize s q ∧ tree.Walked initial msize n newfid names p r q := by
  obtain ⟨rfl, hleast, hstream⟩ := hs
  by_cases hp : Passable s.msize names
  · have hfits : (Operation.walk fid newfid names).Fits s := by
      match names, hlen with
      | [], _ => exact Operation.fits_walk_nil hleast
      | [name], _ =>
        obtain ⟨htext, hroom⟩ := passable_iff.1 (hp name List.mem_cons_self)
        exact Operation.fits_walk_one htext (Nat.le_sub_of_add_le' hroom) hleast
    have hs : Settled s.msize s p := ⟨rfl, hleast, hstream⟩
    have hop := Operation.heard (.exclusive tree initial) (.walk fid newfid names) hs hfits rfl
    refine hop.of_map.mono fun r t q ⟨ht, answer, hheard, hallowed, htype, hr⟩ => ?_
    refine ⟨ht, hs.heard hheard, ?_⟩
    have hbound := hheard.bound tree initial
    exact Tree.walked_of_answer hp hb (hallowed hlen n hb) hbound hr
  · have hs : Settled s.msize s p := ⟨rfl, hleast, hstream⟩
    refine (walk_unpassable hlen hp).mono fun r t q ⟨ht, hq, e, hr⟩ => ?_
    subst ht hq hr
    exact ⟨rfl, hs, .refused (fun hp' => absurd hp' hp) rfl⟩

end Client.Always

/-! ## Fids to spare -/

/-- What a step of a walk does to the fids in use: they stay bound, but for `owned`, and
none is bound besides, but for `new`. -/
structure Tree.Passed (tree : Tree Node) (initial : UInt32 → Option Node)
    (owned new : Option UInt32) (p q : Peer) : Prop where
  kept : ∀ fid m, tree.bound initial p fid = some m → owned ≠ some fid →
    tree.bound initial q fid = some m
  only : ∀ fid m, tree.bound initial q fid = some m →
    new = some fid ∨ owned ≠ some fid ∧ tree.bound initial p fid = some m

theorem Tree.Passed.refl (p : Peer) : tree.Passed initial none none p p where
  kept _ _ hb _ := hb
  only _ _ hb := .inr ⟨fun he => (by cases he), hb⟩

theorem Tree.Passed.of_released {owned : Option UInt32} (h : ∀ fid, tree.bound initial q fid =
    if owned = some fid then none else tree.bound initial p fid) :
    tree.Passed initial owned none p q where
  kept fid m hb hne := by rw [h, if_neg hne, hb]
  only fid m hb := by
    rw [h] at hb
    split at hb
    · cases hb
    · rename_i hne
      exact .inr ⟨hne, hb⟩

/-- A free fid has been bound, and then another one given back. -/
theorem Tree.Passed.of_granted {owned : Option UInt32} {newfid : UInt32} {c : Node} {q' : Peer}
    (hfree : tree.bound initial p newfid = none)
    (hbound : tree.bound initial q = Function.update (tree.bound initial p) newfid (some c))
    (h : tree.Passed initial owned none q q') :
    tree.Passed initial owned (some newfid) p q' where
  kept fid m hb hne := by
    have hother : fid ≠ newfid := fun he => by rw [he, hfree] at hb; cases hb
    exact h.kept fid m (by rw [hbound, Function.update_of_ne hother, hb]) hne
  only fid m hb := by
    obtain ⟨hne, hq⟩ := (h.only fid m hb).resolve_left fun he => by cases he
    by_cases he : fid = newfid
    · exact .inl (congrArg some he.symm)
    · rw [hbound, Function.update_of_ne he] at hq
      exact .inr ⟨hne, hq⟩

/-- None of the next fids is in use, but for `owned`, which is not the first of them. -/
structure Tree.Vacant (tree : Tree Node) (initial : UInt32 → Option Node)
    (owned : Option UInt32) (count : Nat) (s : Session) (p : Peer) : Prop where
  next : owned ≠ some s.fids.take.1
  free : ∀ fid ∈ s.fids.takeMany count, owned ≠ some fid → tree.bound initial p fid = none

theorem Tree.Vacant.first {owned : Option UInt32} {count : Nat}
    (h : tree.Vacant initial owned (count + 1) s p) :
    tree.bound initial p s.fids.take.1 = none :=
  h.free _ List.mem_cons_self h.next

/-- The first of the fids has been bound and `owned` has been given back. -/
theorem Tree.Vacant.rest {owned : Option UInt32} {count : Nat}
    (h : tree.Vacant initial owned (count + 1) s p)
    (hpassed : tree.Passed initial owned (some s.fids.take.1) p q) :
    tree.Vacant initial (some s.fids.take.1) count { s with fids := s.fids.take.2 } q where
  next he := s.fids.take_take_ne (Option.some.inj he).symm
  free fid hmem hne := by
    cases hb : tree.bound initial q fid with
    | none => rfl
    | some m =>
      obtain ⟨hne', hb'⟩ := (hpassed.only fid m hb).resolve_left hne
      rw [h.free fid (List.mem_cons_of_mem _ hmem) hne'] at hb'
      cases hb'

/-- All fids that are bound have been taken, and the count can go on for so many more
without coming round. -/
structure Tree.Ample (tree : Tree Node) (initial : UInt32 → Option Node) (count : Nat)
    (s : Session) (p : Peer) : Prop where
  below : ∀ fid n, tree.bound initial p fid = some n → fid.toNat < s.fids.next.toNat
  positive : 0 < s.fids.next.toNat
  room : s.fids.next.toNat + count < 2 ^ 32

namespace Tree.Ample

variable {count more : Nat}

theorem take (h : tree.Ample initial (count + 1) s p) :
    s.fids.take.1 = s.fids.next ∧ s.fids.take.2.next.toNat = s.fids.next.toNat + 1 :=
  FidSource.toNat_take_of_lt h.positive (by have := h.room; omega)

/-- One fid has been taken, and may have been bound. -/
theorem counted (h : tree.Ample initial (count + 1) s p)
    (hq : ∀ fid n, tree.bound initial q fid = some n →
      fid = s.fids.take.1 ∨ ∃ m, tree.bound initial p fid = some m) :
    tree.Ample initial count { s with fids := s.fids.take.2 } q := by
  have hroom := h.room
  obtain ⟨hfirst, hnext⟩ := h.take
  refine ⟨fun fid n hb => ?_, ?_, ?_⟩
  · show fid.toNat < s.fids.take.2.next.toNat
    rcases hq fid n hb with rfl | ⟨m, hm⟩
    · rw [hnext, hfirst]
      exact Nat.lt_succ_self _
    · have := h.below fid m hm
      omega
  · show 0 < s.fids.take.2.next.toNat
    omega
  · show s.fids.take.2.next.toNat + count < 2 ^ 32
    omega

/-- No fid has been bound. -/
theorem shrink (h : tree.Ample initial (more + count) s p)
    (hq : ∀ fid n, tree.bound initial q fid = some n → tree.bound initial p fid = some n) :
    tree.Ample initial count s q where
  below fid n hb := h.below fid n (hq fid n hb)
  positive := h.positive
  room := by
    have := h.room
    omega

/-- Fids that have not been taken yet are not in use. -/
theorem vacant (h : tree.Ample initial count s p) : tree.Vacant initial none count s p where
  next he := by cases he
  free fid hmem _ := by
    have hle := FidSource.le_of_mem_takeMany h.positive h.room hmem
    cases hb : tree.bound initial p fid with
    | none => rfl
    | some n =>
      have := h.below fid n hb
      omega

end Tree.Ample

/-! ## Paths -/

/-- What comes of walking names that lead to `destination`, if anywhere, for which at
most `count` fids are taken. Fids that are in use stay bound, but for `owned`. If there
is a result, then it is bound to the destination; and there is one if the names can be
walked and the fids are free. -/
structure Tree.Landed (tree : Tree Node) (initial : UInt32 → Option Node) (msize : UInt32)
    (owned : Option UInt32) (names : List String) (count : Nat) (destination : Option Node)
    (s : Session) (p : Peer) (r : Except Error Location) (t : Session) (q : Peer) : Prop where
  settled : Settled msize t q
  kept : ∀ fid m, tree.bound initial p fid = some m → owned ≠ some fid →
    tree.bound initial q fid = some m
  found : ∀ location, r = .ok location → Passable msize names ∧
    ∃ m, destination = some m ∧ tree.At initial q location m
  arrives : tree.Vacant initial owned count s p → Passable msize names → destination ≠ none →
    ∃ location, r = .ok location
  ample : ∀ more, tree.Ample initial (count + more) s p → tree.Ample initial more t q

/-- A walk that fails has not changed more than the fid that it gives back. -/
theorem Tree.Landed.failed {owned : Option UInt32} {names : List String} {count : Nat}
    {destination : Option Node} {t : Session} {e : Error} (hs : Settled msize t q)
    (hk : ∀ fid m, tree.bound initial p fid = some m → owned ≠ some fid →
      tree.bound initial q fid = some m)
    (hv : tree.Vacant initial owned count s p → Passable msize names → destination = none)
    (ha : ∀ more, tree.Ample initial (count + more) s p → tree.Ample initial more t q) :
    tree.Landed initial msize owned names count destination s p (.error e) t q where
  settled := hs
  kept := hk
  found _ h := by cases h
  arrives hvacant hp hsome := absurd (hv hvacant hp) hsome
  ample := ha

namespace Client.Always

/-- A step of one name, after which the fid of the step before is given back. -/
theorem step_exclusive {α : Type} {owned : Option UInt32} {fid newfid : UInt32} {name : String}
    {f : Except Error (List Qid) → Client α} {Q : Except Error α → Session → Peer → Prop}
    (hs : Settled msize s p) (hb : tree.bound initial p fid = some n)
    (howned : ∀ other, owned = some other → other = fid)
    (hmiss : ∀ e q, Settled msize s q → tree.Passed initial owned none p q →
      (passable msize name = true → tree.bound initial p newfid = none →
        tree.step n name = none) →
      Always (tree.Hosts initial msize) (f (.error e)) s q Q)
    (hhit : ∀ c q, Settled msize s q → tree.Passed initial owned (some newfid) p q →
      passable msize name = true → tree.step n name = some c →
      tree.At initial q ⟨newfid, tree.qid c⟩ c → tree.bound initial p newfid = none →
      Always (tree.Hosts initial msize) (f (.ok [tree.qid c])) s q Q) :
    Always (tree.Hosts initial msize)
      (Client.attempt (Session.walk fid newfid [name]) >>= fun r =>
        Session.releaseAny owned >>= fun _ => f r) s p Q := by
  have hone : [name].length ≤ 1 := Nat.le_refl 1
  refine (walk_exclusive hone hs hb).attempt.bind_of_yields fun r t q ⟨ht, hsettled, hwalked⟩ => ?_
  subst ht
  refine (releaseAny_bound tree initial owned hsettled).bind_of_yields
    fun _ t q' ⟨ht, hsettled', hreleased⟩ => ?_
  subst ht
  have hpassed := Tree.Passed.of_released hreleased
  cases hwalked with
  | refused hwhy hsame =>
    refine hmiss _ q' hsettled' ⟨fun other m hm => ?_, fun other m hm => ?_⟩ fun hp hfree => ?_
    · exact hpassed.kept other m (by rw [hsame, hm])
    · rw [← hsame]
      exact hpassed.only other m hm
    · rw [← Tree.steps_singleton]
      exact hwhy (fun other hm => List.mem_singleton.1 hm ▸ hp) hfree
  | @granted c _ hp hsteps hfree hbound =>
    rw [Tree.steps_singleton] at hsteps
    refine hhit c q' hsettled' (.of_granted hfree hbound hpassed) (hp name List.mem_cons_self)
      hsteps ⟨?_, rfl⟩ hfree
    refine hpassed.kept newfid c (by rw [hbound, Function.update_self]) fun he => ?_
    rw [howned newfid he, hb] at hfree
    cases hfree

variable [DecidableEq Node]

theorem descend_exclusive {top : Node} {owned : Option UInt32} {current : Location}
    {names : List String} (hs : Settled msize s p) (hc : tree.At initial p current n)
    (howned : ∀ fid, owned = some fid → fid = current.fid) :
    Always (tree.Hosts initial msize) (Session.descend (tree.qid top) owned current names) s p
      (tree.Landed initial msize owned names names.length (tree.follow top n names) s p) := by
  -- Along the names: after each step the fid that it bound is the one owned, so that the fids
  -- to come need only be free of those that were in use at the start.
  induction names generalizing owned current n s p with
  | nil =>
    refine .pure ⟨hs, fun _ _ hb _ => hb, fun location hl => ?_,
      fun _ _ _ => ⟨current, rfl⟩, fun more h => ?_⟩
    · obtain rfl := Except.ok.inj hl
      exact ⟨fun _ hm => (by cases hm), n, rfl, hc⟩
    · exact h.shrink fun _ _ hb => hb
  | cons name names ih =>
    refine .descend_cons (fun hup => ?_) fun hup => ?_
    · have hnone : tree.follow top n (name :: names) = none :=
        if_pos ((Tree.up_iff hc.qid).1 hup)
      refine (releaseAny_bound tree initial owned hs).mono
        fun _ t q ⟨_, hr, ht, hsettled, hreleased⟩ => ?_
      subst ht
      have hpassed := Tree.Passed.of_released hreleased
      refine ⟨(), hr, .failed hsettled hpassed.kept (fun _ _ => hnone) fun more h => ?_⟩
      exact h.shrink fun fid m hb => ((hpassed.only fid m hb).resolve_left fun he => by cases he).2
    · have hfollow : tree.follow top n (name :: names) =
          (tree.step n name).bind fun c => tree.follow top c names :=
        if_neg fun h => hup ((Tree.up_iff hc.qid).2 h)
      have hcount (more : Nat) : (name :: names).length + more = names.length + more + 1 := by
        rw [List.length_cons]
        omega
      rw [hfollow]
      refine counted (step_exclusive (hs.counted s.fids.take.2) hc.bound howned
        (fun e q hsettled hpassed hwhy => ?_)
        fun c q hsettled hpassed hp hstep hat hfree => ?_)
      · refine .throw (.failed hsettled hpassed.kept (fun hvacant hall => ?_) fun more h => ?_)
        · rw [hwhy (hall name List.mem_cons_self) hvacant.first]
          rfl
        · rw [hcount] at h
          refine (h.counted fun fid m hb => ?_).shrink fun _ _ hb => hb
          exact .inr ⟨m, ((hpassed.only fid m hb).resolve_left fun he => by cases he).2⟩
      · rw [hstep]
        refine (ih hsettled hat fun fid he => (Option.some.inj he).symm).mono
          fun r t q' hlanded => ⟨hlanded.settled, fun fid m hb hne => ?_, fun location hl => ?_,
            fun hvacant hall => ?_, fun more h => ?_⟩
        · refine hlanded.kept fid m (hpassed.kept fid m hb hne) fun he => ?_
          rw [← Option.some.inj he, hfree] at hb
          cases hb
        · obtain ⟨hall, hfound⟩ := hlanded.found location hl
          exact ⟨List.forall_mem_cons.2 ⟨hp, hall⟩, hfound⟩
        · exact hlanded.arrives (hvacant.rest hpassed) fun name hm =>
            hall name (List.mem_cons_of_mem _ hm)
        · rw [hcount] at h
          exact hlanded.ample more (h.counted fun fid m hb =>
            (hpassed.only fid m hb).imp (fun he => (Option.some.inj he).symm) fun hb => ⟨m, hb.2⟩)

/-- A path without names leads to where it is taken from, by a clone of the fid. -/
theorem cloned_exclusive {top : Node} {origin : Location} (hs : Settled msize s p)
    (hat : tree.At initial p origin n) :
    Always (tree.Hosts initial msize)
      (Client.freshFid >>= fun fid => Session.walk origin.fid fid [] >>= fun _ =>
        Pure.pure ({ fid, qid := origin.qid } : Location)) s p
      (tree.Landed initial msize none [] 1 (tree.follow top n []) s p) := by
  have hnone : ([] : List String).length ≤ 1 := Nat.zero_le 1
  have hcount (more : Nat) : 1 + more = more + 1 := Nat.add_comm 1 more
  refine counted ((walk_exclusive hnone (hs.counted s.fids.take.2) hat.bound).bind
    (fun qids t q ⟨ht, hsettled, hwalked⟩ => ?_) fun e t q ⟨ht, hsettled, hwalked⟩ => ?_)
  · subst ht
    generalize hr : (Except.ok qids : Except Error (List Qid)) = r at hwalked
    cases hwalked with
    | refused => cases hr
    | @granted c _ hp hsteps hfree hbound =>
      obtain rfl : n = c := Option.some.inj hsteps
      have hpassed := Tree.Passed.of_granted hfree hbound (.refl q)
      refine .pure ⟨hsettled, hpassed.kept, fun location hl => ⟨hp, n, rfl, ?_⟩,
        fun _ _ _ => ⟨_, rfl⟩, fun more h => ?_⟩
      · obtain rfl := Except.ok.inj hl
        exact ⟨by rw [hbound, Function.update_self], hat.qid⟩
      · rw [hcount] at h
        exact h.counted fun fid m hb =>
          (hpassed.only fid m hb).imp (fun he => (Option.some.inj he).symm) fun hb => ⟨m, hb.2⟩
  · subst ht
    generalize hr : (Except.error e : Except Error (List Qid)) = r at hwalked
    cases hwalked with
    | granted => cases hr
    | refused hwhy hsame =>
      refine .failed hsettled (fun fid m hb _ => by rw [hsame, hb]) (fun hvacant hp => ?_)
        fun more h => ?_
      · cases hwhy hp hvacant.first
      · rw [hcount] at h
        exact h.counted fun fid m hb => .inr ⟨m, by rw [← hsame, hb]⟩

/-- A path that climbs is not found, and leads nowhere; any other is walked. -/
theorem resolve_exclusive {root start : Location} {a b : Node} {path : String}
    (hs : Settled msize s p) (hroot : tree.At initial p root a)
    (hstart : tree.At initial p start b) :
    Always (tree.Hosts initial msize) (Session.resolve root start path) s p
      (tree.Landed initial msize none (Path.components path)
        (max 1 (Path.components path).length)
        (tree.follow a (if Path.isAbsolute path then a else b) (Path.components path)) s p) := by
  let origin := if Path.isAbsolute path then root else start
  have horigin : tree.At initial p origin (if Path.isAbsolute path then a else b) :=
    hroot.ite hstart _
  refine .resolve_of_descend (fun hplan => ?_) (fun _ hnil => ?_) fun _ hne => ?_
  · exact .failed hs (fun _ _ hb _ => hb) (fun _ _ => Tree.follow_of_plan_error hroot hstart hplan)
      fun more h => h.shrink fun _ _ hb => hb
  · rw [hnil]
    exact cloned_exclusive hs horigin
  · have hlen : max 1 (Path.components path).length = (Path.components path).length :=
      Nat.max_eq_right (List.length_pos_iff.2 hne)
    rw [hlen, hroot.qid]
    exact descend_exclusive hs horigin fun fid he => by cases he

end Client.Always

/-! ## Handles -/

theorem Client.Always.lopen_exclusive {fid flags : UInt32} (hs : Settled msize s p)
    (hb : tree.bound initial p fid = some n) :
    Always (tree.Hosts initial msize) (Session.lopen fid flags) s p fun r t q =>
      t = s ∧ Settled msize s q ∧ tree.bound initial q = tree.bound initial p ∧
        ∃ iounit, r = .ok (tree.qid n, iounit) := by
  have hop := Operation.heard (.exclusive tree initial) (.lopen fid flags) hs
    (Operation.fits_of_short rfl (hs.agreed ▸ hs.least)) rfl
  refine hop.of_map.mono fun r t q ⟨ht, answer, hheard, hallowed, _, hr⟩ => ?_
  obtain ⟨iounit, rfl⟩ : ∃ iounit, answer = .rlopen (tree.qid n) iounit := hallowed n hb
  refine ⟨ht, hs.heard hheard, hheard.bound tree initial, iounit, ?_⟩
  cases r with
  | error e => cases hr
  | ok found =>
    obtain ⟨qid, iounit'⟩ := found
    obtain ⟨rfl, rfl⟩ := Body.rlopen.inj (Except.ok.inj hr)
    rfl

/-- A regular file is opened on its own fid, and its identity stays what it was. -/
theorem HandleClient.Always.ensureOpen_exclusive {h : Handle} (hs : Settled msize s p)
    (hat : tree.At initial p h.location n) (hio : h.ioFid = none) (hk : h.kind ≠ .directory) :
    Always (tree.Hosts initial msize) Handle.ensureOpen h s p fun r g t q =>
      (∃ fid, r = .ok fid) ∧ t = s ∧ Settled msize s q ∧
        tree.bound initial q = tree.bound initial p ∧ g.root = h.root ∧
        g.location = h.location ∧ g.path = h.path := by
  refine ensureOpen_of_openOn (fun fid hfid => by cases hio.symm.trans hfid)
    (fun _ hd => absurd hd hk) fun _ _ => ?_
  refine openOn_of_lopen (Client.Always.lopen_exclusive hs hat.bound)
    (fun qid iounit t q ⟨ht, hsettled, hbound, _, hr⟩ => ?_)
    (fun _ _ _ _ ⟨_, _, _, _, hr⟩ => nomatch hr) fun hne => absurd rfl hne
  obtain ⟨rfl, rfl⟩ := Prod.mk.inj (Except.ok.inj hr)
  refine ⟨⟨_, rfl⟩, ht, hsettled, hbound, rfl, ?_, rfl⟩
  rw [if_pos rfl, ← hat.qid]

/-- A handle is taken on every fid that is bound. -/
theorem Client.Always.establish_exclusive {root location : Location} (path : String)
    (hs : Settled msize s p) (hat : tree.At initial p location n) :
    Always (tree.Hosts initial msize) (Handle.establish root location path) s p
      (Yields fun h t q => t = s ∧ Settled msize s q ∧
        tree.bound initial q = tree.bound initial p ∧ h.root = root ∧ h.location = location ∧
        h.path = path) := by
  refine establish_of_ensureOpen (fun hk => .ensureOpen_exclusive hs hat rfl (by rw [hk]; decide))
    (fun _ g t q ⟨_, ht, hsettled, hbound, hsame⟩ => ⟨g, rfl, ht, hsettled, hbound, hsame⟩)
    (fun _ _ _ _ ⟨⟨_, hr⟩, _⟩ => nomatch hr) fun _ => ⟨_, rfl, rfl, hs, rfl, rfl, rfl, rfl⟩

/-- What comes of opening a path. Fids that are in use stay bound. If there is a handle,
then it is bound to the node where the path leads; and there is one if the path leads
somewhere and the fids that it takes are free. -/
structure Tree.Opened (tree : Tree Node) (initial : UInt32 → Option Node) (msize : UInt32)
    (root : Location) (path : String) (names : List String) (destination : Option Node)
    (s : Session) (p : Peer) (r : Except Error Handle) (t : Session) (q : Peer) : Prop where
  settled : Settled msize t q
  kept : ∀ fid m, tree.bound initial p fid = some m → tree.bound initial q fid = some m
  found : ∀ h, r = .ok h → h.root = root ∧ h.path = path ∧ Passable msize names ∧
    ∃ m, destination = some m ∧ tree.At initial q h.location m
  arrives : tree.Vacant initial none (max 1 names.length) s p → Passable msize names →
    destination ≠ none → ∃ h, r = .ok h
  ample : ∀ more, tree.Ample initial (max 1 names.length + more) s p →
    tree.Ample initial more t q

/-- A path is resolved, and the fid that it leads to is taken over by a handle. -/
theorem Client.Always.opened_exclusive [DecidableEq Node] {root start : Location} {a b : Node}
    {path : String} (full : String) (hs : Settled msize s p) (hroot : tree.At initial p root a)
    (hstart : tree.At initial p start b) :
    Always (tree.Hosts initial msize)
      (Session.resolve root start path >>= fun location => Handle.establish root location full) s p
      (tree.Opened initial msize root full (Path.components path)
        (tree.follow a (if Path.isAbsolute path then a else b) (Path.components path)) s p) := by
  refine (resolve_exclusive hs hroot hstart).bind (fun location t q hlanded => ?_)
    fun e t q hlanded => ?_
  · obtain ⟨hp, m, hm, hat⟩ := hlanded.found location rfl
    refine (establish_exclusive full hlanded.settled hat).mono
      fun r u q' ⟨h, hr, ht, hsettled, hbound, hroot', hlocation, hpath⟩ => ?_
    subst ht hr
    refine ⟨hsettled, fun fid c hb => ?_, fun g hg => ?_, fun _ _ _ => ⟨h, rfl⟩,
      fun more hmore => ?_⟩
    · rw [hbound]
      exact hlanded.kept fid c hb fun he => by cases he
    · obtain rfl := Except.ok.inj hg
      refine ⟨hroot', hpath, hp, m, hm, ?_, ?_⟩
      · rw [hbound, hlocation]
        exact hat.bound
      · rw [hlocation]
        exact hat.qid
    · have hample := hlanded.ample more hmore
      exact ⟨fun fid c hb => hample.below fid c (by rw [← hbound, hb]), hample.positive,
        hample.room⟩
  · refine ⟨hlanded.settled, fun fid c hb => hlanded.kept fid c hb fun he => (by cases he),
      fun g hg => (by cases hg), fun hvacant hp hd => ?_, hlanded.ample⟩
    obtain ⟨location, hl⟩ := hlanded.arrives hvacant hp hd
    cases hl

end NineP
