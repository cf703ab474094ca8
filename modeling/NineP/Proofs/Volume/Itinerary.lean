import NineP.Proofs.Handle.Runs
import NineP.Proofs.Session.Record
import NineP.Proofs.World.Scripted
import NineP.Resolve

/-!
# The way through a path

Resolving a path is a row of walks, each of one name, and clunks of the fids on
the way. Which of them are tried depends on what comes of the walks, and on
nothing else that happens in the world:

* `Session.Trail`: transactions that are run one after the other;
* `Session.Descent`: the ways through a list of names, one for each way that the
  loop can end;
* `Session.Descent.moves`, `Session.Descent.settled`, `Session.Descent.result`: what
  is tried on each, which fids are left and what comes of it;
* `Session.resolve_itinerary`: the same of a whole path.
-/

namespace NineP

/-- The next fid is taken, whatever comes of it. -/
theorem Client.Always.freshFid_bind {σ α : Type} {step : σ → Call → Answer → σ → Prop} {s : Session}
    {p : σ} {f : UInt32 → Client α} {Q : Except Error α → Session → σ → Prop}
    (h : Always step (f s.fids.take.1) { s with fids := s.fids.take.2 } p Q) :
    Always step (Client.freshFid >>= f) s p Q := h

namespace Session

section

variable {σ α : Type} {step : σ → Call → Answer → σ → Prop} {s : Session} {p : σ}

/-- In any world, an operation that succeeds has received a frame that holds its
result. -/
theorem Query.always_held (op : Query α) :
    Client.Always step op.perform s p fun r t _ =>
      t = op.leaves s r ∧ ∀ a, r = .ok a → ∃ frame, op.verdict s frame = some (.ok a) := by
  refine Query.always (fun e he => ⟨rfl, fun a ha => by cases ha⟩) fun _ _ response _ _ =>
    ⟨rfl, fun a ha => ?_⟩
  cases response with
  | error e => cases ha
  | ok frame =>
    obtain ⟨r, hr⟩ := op.exists_verdict s frame
    exact ⟨frame, by rw [hr, ← result_of_verdict hr, ha]⟩

/-- A walk that succeeds has an identity for each of its names. -/
theorem always_walk {fid newfid : UInt32} {names : List String} :
    Client.Always step (walk fid newfid names) s p fun r t _ =>
      t = s ∧ ∀ qids, r = .ok qids → qids.length = names.length := by
  refine (Query.always_held (.walk fid newfid names)).mono fun r t _ ⟨ht, hheld⟩ =>
    ⟨ht, fun qids hqids => ?_⟩
  obtain ⟨frame, hframe⟩ := hheld qids hqids
  obtain ⟨⟨tag, body⟩, -, -, hreading⟩ := (Query.verdict_eq_ok (fun h => by cases h)).1 hframe
  cases body with
  | rwalk found =>
    have hreading : (if found.length > names.length then _ else if found.length < names.length
        then _ else .ok found : Except Error (List Qid)) = .ok qids := Option.some.inj hreading
    by_cases hmore : found.length > names.length
    · rw [if_pos hmore] at hreading
      cases hreading
    rw [if_neg hmore] at hreading
    by_cases hless : found.length < names.length
    · rw [if_pos hless] at hreading
      cases hreading
    rw [if_neg hless] at hreading
    obtain rfl := Except.ok.inj hreading
    omega
  | _ => cases hreading

theorem always_clunk {fid : UInt32} :
    Client.Always step (clunk fid) s p fun _ t _ => t = s :=
  (Query.always_held (.clunk fid)).mono fun _ _ _ h => h.1

end

/-! ## Transactions on the way -/

/-- A transaction on the way through a path. -/
inductive Move where
  | walk (fid newfid : UInt32) (names : List String)
  | clunk (fid : UInt32)
  deriving DecidableEq, Repr

/-- A transaction that has been tried, with what came of it. -/
inductive Attempt where
  | walk (fid newfid : UInt32) (names : List String) (outcome : Except Error (List Qid))
  | clunk (fid : UInt32) (outcome : Except Error Unit)

namespace Attempt

/-- What has been tried. -/
def move : Attempt → Move
  | walk fid newfid names _ => .walk fid newfid names
  | clunk fid _ => .clunk fid

/-- What came of a walk. -/
def walked? : Attempt → Option (Except Error (List Qid))
  | walk _ _ _ outcome => some outcome
  | clunk .. => none

/-- The fid that a walk has established. -/
def established? : Attempt → Option UInt32
  | walk _ newfid _ (.ok _) => some newfid
  | _ => none

/-- The fid that was to be given back. -/
def clunked? : Attempt → Option UInt32
  | clunk fid _ => some fid
  | walk .. => none

end Attempt

variable {σ : Type} {step : σ → Call → Answer → σ → Prop}

/-- The attempts are made one after the other, and nothing else is done. Each walk
is to a fresh fid. -/
inductive Trail (step : σ → Call → Answer → σ → Prop) :
    Session → σ → List Attempt → Session → σ → Prop where
  | done (s : Session) (p : σ) : Trail step s p [] s p
  | walk {s t u : Session} {p q v : σ} {fid : UInt32} {names : List String}
    {outcome : Except Error (List Qid)} {attempts : List Attempt} :
    ((Session.walk fid s.fids.take.1 names).runIn { s with fids := s.fids.take.2 }).Runs step p
      (outcome, t) q →
    Trail step t q attempts u v →
    Trail step s p (.walk fid s.fids.take.1 names outcome :: attempts) u v
  | clunk {s t u : Session} {p q v : σ} {fid : UInt32} {outcome : Except Error Unit}
    {attempts : List Attempt} :
    ((Session.clunk fid).runIn s).Runs step p (outcome, t) q →
    Trail step t q attempts u v →
    Trail step s p (.clunk fid outcome :: attempts) u v

theorem Trail.append {s t u : Session} {p q v : σ} {attempts more : List Attempt}
    (h : Trail step s p attempts t q) (h' : Trail step t q more u v) :
    Trail step s p (attempts ++ more) u v := by
  induction h with
  | done => exact h'
  | walk hrun _ ih => exact .walk hrun (ih h')
  | clunk hrun _ ih => exact .clunk hrun (ih h')

/-! ## Through a list of names -/

/-- The transactions of a walk through names that comes to its end: for each name a
walk to the next fid, and then the fid of the step before is given back. -/
def itinerary : (owned : Option UInt32) → (fid : UInt32) → FidSource → List String → List Move
  | _, _, _, [] => []
  | owned, fid, fids, name :: names =>
    .walk fid fids.take.1 [name] :: (owned.toList.map .clunk ++
      itinerary (some fids.take.1) fids.take.1 fids.take.2 names)

/-- What a walk through names comes to, from what comes of each of its steps; nothing
if there are too few of them or too many. -/
def arrival (root : Qid) : (current : Location) → FidSource → List String →
    (outcomes : List (Except Error (List Qid))) → Option (Except Error Location)
  | current, _, [], outcomes => if outcomes.isEmpty then some (.ok current) else none
  | current, fids, name :: names, outcomes =>
    if name = Path.parent ∧ current.qid.sameObject root = true then
      if outcomes.isEmpty then some (.error (.server .notFound)) else none
    else match outcomes with
      | [.error e] => some (.error e)
      | .ok (qid :: _) :: outcomes => arrival root ⟨fids.take.1, qid⟩ fids.take.2 names outcomes
      | _ => none

section

variable {root : Qid} {current : Location} {fids : FidSource} {name : String} {names : List String}

theorem eq_of_arrival_nil {outcomes : List (Except Error (List Qid))} {here : Location}
    (h : arrival root current fids [] outcomes = some (.ok here)) : here = current := by
  rw [arrival] at h
  split at h
  · exact (Except.ok.inj (Option.some.inj h)).symm
  · cases h

theorem arrival_of_atRoot (h : name = Path.parent ∧ current.qid.sameObject root = true) :
    arrival root current fids (name :: names) [] = some (.error (.server .notFound)) := if_pos h

theorem arrival_of_error (h : ¬ (name = Path.parent ∧ current.qid.sameObject root = true))
    (e : Error) : arrival root current fids (name :: names) [.error e] = some (.error e) :=
  if_neg h

theorem arrival_of_ok (h : ¬ (name = Path.parent ∧ current.qid.sameObject root = true))
    (qid : Qid) (outcomes : List (Except Error (List Qid))) :
    arrival root current fids (name :: names) (.ok [qid] :: outcomes) =
      arrival root ⟨fids.take.1, qid⟩ fids.take.2 names outcomes := if_neg h

end

/-- Giving back the fid of the step before, if there was one, whatever comes of
it. -/
def GivesBack (owned : Option UInt32) (attempts : List Attempt) : Prop :=
  attempts.map Attempt.move = owned.toList.map .clunk

/-- The ways through a list of names: what is tried, and what comes of it all. -/
inductive Descent (root : Qid) : Option UInt32 → Location → FidSource → List String →
    List Attempt → Except Error Location → Prop where
  | arrived {owned : Option UInt32} {current : Location} {fids : FidSource} :
    Descent root owned current fids [] [] (.ok current)
  | atRoot {owned : Option UInt32} {current : Location} {fids : FidSource} {name : String}
    {names : List String} {back : List Attempt} :
    name = Path.parent ∧ current.qid.sameObject root = true → GivesBack owned back →
    Descent root owned current fids (name :: names) back (.error (.server .notFound))
  | failed {owned : Option UInt32} {current : Location} {fids : FidSource} {name : String}
    {names : List String} {back : List Attempt} {e : Error} :
    ¬ (name = Path.parent ∧ current.qid.sameObject root = true) → GivesBack owned back →
    Descent root owned current fids (name :: names)
      (.walk current.fid fids.take.1 [name] (.error e) :: back) (.error e)
  | walked {owned : Option UInt32} {current : Location} {fids : FidSource} {name : String}
    {names : List String} {qid : Qid} {back rest : List Attempt} {r : Except Error Location} :
    ¬ (name = Path.parent ∧ current.qid.sameObject root = true) → GivesBack owned back →
    Descent root (some fids.take.1) ⟨fids.take.1, qid⟩ fids.take.2 names rest r →
    Descent root owned current fids (name :: names)
      (.walk current.fid fids.take.1 [name] (.ok [qid]) :: (back ++ rest)) r

theorem always_releaseAny {owned : Option UInt32} {s : Session} {p : σ} :
    Client.Always step (releaseAny owned) s p
      (Client.Yields fun _ t q => t = s ∧ ∃ back, Trail step s p back t q ∧ GivesBack owned back) := by
  cases owned with
  | none => exact .pure ⟨(), rfl, rfl, [], .done s p, rfl⟩
  | some fid =>
    have hrun : Client.Always step (clunk fid) s p fun r t q =>
        t = s ∧ ((clunk fid).runIn s).Runs step p (r, t) q :=
      fun r q h => ⟨always_clunk r q h, h⟩
    refine hrun.attempt.bind_of_yields fun outcome t q ⟨ht, hrun⟩ => .pure ⟨(), rfl, ht, ?_⟩
    exact ⟨[.clunk fid outcome], .clunk hrun (.done t q), rfl⟩

/-- A walk through names goes one of these ways. -/
theorem always_descent {root : Qid} {owned : Option UInt32} {current : Location}
    {names : List String} {s : Session} {p : σ} :
    Client.Always step (descend root owned current names) s p fun r t q =>
      ∃ attempts, Trail step s p attempts t q ∧
        Descent root owned current s.fids names attempts r := by
  induction names generalizing owned current s p with
  | nil => exact .pure ⟨[], .done s p, .arrived⟩
  | cons name names ih =>
    have hup : (name == Path.parent && current.qid.sameObject root) = true ↔
        name = Path.parent ∧ current.qid.sameObject root = true := by
      rw [Bool.and_eq_true, beq_iff_eq]
    refine .descend_cons (fun hroot => ?_) fun hroot => ?_
    · exact always_releaseAny.mono fun _ t q ⟨_, hr, _, back, htrail, hback⟩ =>
        ⟨(), hr, back, htrail, .atRoot (hup.1 hroot) hback⟩
    · have hrun : Client.Always step (walk current.fid s.fids.take.1 [name])
          { s with fids := s.fids.take.2 } p fun r t q =>
            (t = { s with fids := s.fids.take.2 } ∧ ∀ qids, r = .ok qids → qids.length = 1) ∧
            ((walk current.fid s.fids.take.1 [name]).runIn { s with fids := s.fids.take.2 }).Runs
              step p (r, t) q :=
        fun r q h => ⟨always_walk r q h, h⟩
      refine Client.Always.freshFid_bind ?_
      refine hrun.attempt.bind_of_yields fun outcome t q ⟨⟨ht, hlen⟩, hwalk⟩ => ?_
      refine always_releaseAny.bind_of_yields fun _ u v ⟨hu, back, htrail, hback⟩ => ?_
      subst hu
      have hnot := fun h => hroot (hup.2 h)
      cases outcome with
      | error e => exact .throw ⟨_, .walk hwalk htrail, .failed hnot hback⟩
      | ok qids =>
        obtain ⟨qid, rfl⟩ := List.length_eq_one_iff.1 (hlen qids rfl)
        refine ih.mono fun r w z ⟨rest, hrest, hdescent⟩ => ?_
        subst ht
        exact ⟨_, .walk hwalk (htrail.append hrest), .walked hnot hback hdescent⟩

/-- Nothing is walked to while fids are given back. -/
theorem GivesBack.readings {owned : Option UInt32} {back : List Attempt} (h : GivesBack owned back) :
    back.filterMap Attempt.clunked? = owned.toList ∧ back.filterMap Attempt.walked? = [] ∧
      back.filterMap Attempt.established? = [] := by
  cases owned with
  | none =>
    obtain rfl := List.map_eq_nil_iff.1 h
    exact ⟨rfl, rfl, rfl⟩
  | some fid =>
    obtain ⟨attempt, rfl, hmove⟩ := List.map_eq_singleton_iff.1 h
    cases attempt with
    | walk => cases hmove
    | clunk =>
      obtain rfl := Move.clunk.inj hmove
      exact ⟨rfl, rfl, rfl⟩

/-- The fid that is given out, if there is one. -/
def returned : Except Error Location → List UInt32
  | .ok l => [l.fid]
  | .error _ => []

namespace Descent

variable {root : Qid} {owned : Option UInt32} {current : Location} {fids : FidSource}
  {names : List String} {attempts : List Attempt} {r : Except Error Location}

/-- What comes of the walks decides what comes of it all. -/
theorem result (h : Descent root owned current fids names attempts r) :
    arrival root current fids names (attempts.filterMap Attempt.walked?) = some r := by
  induction h with
  | arrived => rfl
  | atRoot hroot hback =>
    rw [hback.readings.2.1]
    exact arrival_of_atRoot hroot
  | @failed _ current fids name names back e hnot hback =>
    show arrival root current fids (name :: names)
      (.error e :: back.filterMap Attempt.walked?) = some (.error e)
    rw [hback.readings.2.1]
    exact arrival_of_error hnot e
  | @walked _ _ _ _ _ qid back rest _ hnot hback _ ih =>
    have hwalks : (back ++ rest).filterMap Attempt.walked? =
        back.filterMap Attempt.walked? ++ rest.filterMap Attempt.walked? := List.filterMap_append
    rw [hback.readings.2.1, List.nil_append] at hwalks
    rw [← ih, ← hwalks]
    exact arrival_of_ok hnot qid _

/-- The fids that are established are those that are given back and the one that
is given out. -/
theorem settled (h : Descent root owned current fids names attempts r)
    (hc : names = [] → owned = some current.fid) :
    attempts.filterMap Attempt.clunked? ++ returned r =
      owned.toList ++ attempts.filterMap Attempt.established? := by
  induction h with
  | arrived =>
    rw [hc rfl]
    rfl
  | atRoot hroot hback =>
    obtain ⟨hclunked, -, hestablished⟩ := hback.readings
    rw [hclunked, hestablished]
    rfl
  | @failed owned _ _ _ _ back e hnot hback =>
    obtain ⟨hclunked, -, hestablished⟩ := hback.readings
    show back.filterMap Attempt.clunked? ++ [] = owned.toList ++ back.filterMap Attempt.established?
    rw [hclunked, hestablished]
  | @walked owned _ fids _ _ _ back rest r hnot hback _ ih =>
    obtain ⟨hclunked, -, hestablished⟩ := hback.readings
    show (back ++ rest).filterMap Attempt.clunked? ++ returned r =
      owned.toList ++ fids.take.1 :: (back ++ rest).filterMap Attempt.established?
    rw [List.filterMap_append, List.filterMap_append, hclunked, hestablished, List.append_assoc,
      ih fun _ => rfl]
    rfl

/-- Fids are established in the order in which they are taken. -/
theorem established (h : Descent root owned current fids names attempts r) :
    attempts.filterMap Attempt.established? <+: fids.takeMany names.length := by
  induction h with
  | arrived => exact List.nil_prefix
  | atRoot hroot hback =>
    rw [hback.readings.2.2]
    exact List.nil_prefix
  | @failed _ _ _ _ _ back e hnot hback =>
    show back.filterMap Attempt.established? <+: _
    rw [hback.readings.2.2]
    exact List.nil_prefix
  | @walked _ _ fids _ _ _ back rest _ hnot hback _ ih =>
    show fids.take.1 :: (back ++ rest).filterMap Attempt.established? <+: _
    rw [List.filterMap_append, hback.readings.2.2]
    exact List.cons_prefix_cons.2 ⟨rfl, ih⟩

/-- What is tried is what is to be done, as far as it goes; or, before a step that
would lead up from the root, it is all that is to be done before and then the
last fid is given back. -/
theorem moves (h : Descent root owned current fids names attempts r) :
    attempts.map Attempt.move <+: itinerary owned current.fid fids names ∨
      ∃ before after here, names = before ++ Path.parent :: after ∧
        arrival root current fids before (attempts.filterMap Attempt.walked?) = some (.ok here) ∧
        here.qid.sameObject root = true ∧ r = .error (.server .notFound) ∧
        attempts.map Attempt.move = itinerary owned current.fid fids before ++
          (if before = [] then owned else some here.fid).toList.map .clunk := by
  induction h with
  | arrived => exact .inl List.nil_prefix
  | @atRoot owned current fids name names back hroot hback =>
    refine .inr ⟨[], names, current, by rw [hroot.1]; rfl, ?_, hroot.2, rfl, ?_⟩
    · rw [hback.readings.2.1]
      rfl
    · rw [hback]
      rfl
  | @failed owned current fids name names back e hnot hback =>
    refine .inl ?_
    rw [List.map_cons, hback, itinerary]
    exact List.cons_prefix_cons.2 ⟨rfl, List.prefix_append _ _⟩
  | @walked owned current fids name names qid back rest r hnot hback hrest ih =>
    have hmoves : (Attempt.walk current.fid fids.take.1 [name] (.ok [qid]) :: (back ++ rest)).map
        Attempt.move = .walk current.fid fids.take.1 [name] ::
          (owned.toList.map .clunk ++ rest.map Attempt.move) := by
      rw [List.map_cons, List.map_append, hback]
      rfl
    rw [hmoves]
    obtain hprefix | ⟨before, after, here, rfl, harrival, hhere, hr, hrest⟩ := ih
    · refine .inl ?_
      rw [itinerary]
      exact List.cons_prefix_cons.2 ⟨rfl, (List.prefix_append_right_inj _).2 hprefix⟩
    · refine .inr ⟨name :: before, after, here, rfl, ?_, hhere, hr, ?_⟩
      · show arrival root current fids (name :: before)
          (.ok [qid] :: (back ++ rest).filterMap Attempt.walked?) = some (.ok here)
        rw [arrival_of_ok hnot, List.filterMap_append, hback.readings.2.1]
        exact harrival
      · rw [hrest, itinerary, List.cons_append, List.append_assoc]
        cases before with
        | nil =>
          obtain rfl := eq_of_arrival_nil harrival
          rfl
        | cons => rfl

end Descent

/-! ## Whole paths -/

/-- The attempts are the itinerary of the names from `origin`, as far as they go. Or
the names lead up from the root somewhere: then the attempts are the itinerary up to
there, and the last fid is given back in place of the step. -/
def Along (root : Qid) (origin : Location) (fids : FidSource) (names : List String)
    (attempts : List Attempt) (r : Except Error Location) : Prop :=
  attempts.map Attempt.move <+: itinerary none origin.fid fids names ∨
    ∃ before after here, before ≠ [] ∧ names = before ++ Path.parent :: after ∧
      arrival root origin fids before (attempts.filterMap Attempt.walked?) = some (.ok here) ∧
      here.qid.sameObject root = true ∧ r = .error (.server .notFound) ∧
      attempts.map Attempt.move = itinerary none origin.fid fids before ++ [.clunk here.fid]

theorem Descent.along {root : Qid} {origin : Location} {fids : FidSource} {names : List String}
    {attempts : List Attempt} {r : Except Error Location}
    (h : Descent root none origin fids names attempts r) :
    Along root origin fids names attempts r := by
  obtain hprefix | ⟨before, after, here, hnames, harrival, hhere, hr, hmoves⟩ := h.moves
  · exact .inl hprefix
  · by_cases hbefore : before = []
    · rw [if_pos hbefore, hbefore] at hmoves
      exact .inl (hmoves ▸ List.nil_prefix)
    · rw [if_neg hbefore] at hmoves
      exact .inr ⟨before, after, here, hbefore, hnames, harrival, hhere, hr, hmoves⟩

/-- Where a plan starts. -/
def origin (root start : Location) (plan : Path.Plan) : Location :=
  if plan.fromRoot then root else start

/-- Whether a path starts at the root though it does not say so. -/
def startsAtRoot (root start : Location) : Bool :=
  start.fid == root.fid || start.qid.sameObject root.qid

section

variable {root start : Location} {path : String} {s t : Session} {p q : σ}
  {r : Except Error Location}

/-- A path that has a plan is resolved by one walk without names or by one
descent. -/
theorem always_resolve : Client.Always step (resolve root start path) s p fun r t q =>
    ∃ attempts, Trail step s p attempts t q ∧
      match Path.plan path (startsAtRoot root start) with
      | .error e => attempts = [] ∧ r = .error e
      | .ok plan =>
        (plan.names = [] → ∃ outcome,
          attempts = [.walk (origin root start plan).fid s.fids.take.1 [] outcome] ∧
          r = (fun _ => ⟨s.fids.take.1, (origin root start plan).qid⟩) <$> outcome) ∧
        (plan.names ≠ [] →
          Descent root.qid none (origin root start plan) s.fids plan.names attempts r) := by
  let location := origin root start ⟨Path.isAbsolute path, Path.components path⟩
  refine .resolve_of_descend (fun hplan => ?_) (fun hplan hnil => ?_) fun hplan hne => ?_
  all_goals
    have hplan : Path.plan path (startsAtRoot root start) = _ := hplan
    rw [hplan]
  · exact ⟨[], .done s p, rfl, rfl⟩
  · refine Client.Always.freshFid_bind ?_
    have hrun : Client.Always step (walk location.fid s.fids.take.1 [])
        { s with fids := s.fids.take.2 } p fun outcome t q =>
          ((walk location.fid s.fids.take.1 []).runIn
            { s with fids := s.fids.take.2 }).Runs step p (outcome, t) q :=
      fun _ _ h => h
    refine hrun.bind (fun qids t q hwalk => .pure ?_) fun e t q hwalk => ?_
    · exact ⟨_, .walk hwalk (.done t q), fun _ => ⟨.ok qids, rfl, rfl⟩, fun h => absurd hnil h⟩
    · exact ⟨_, .walk hwalk (.done t q), fun _ => ⟨.error e, rfl, rfl⟩, fun h => absurd hnil h⟩
  · exact always_descent.mono fun r t q ⟨attempts, htrail, hd⟩ =>
      ⟨attempts, htrail, fun h => absurd h hne, fun _ => hd⟩

/-- Resolving a path is a row of attempts, and what is tried and what comes of it all
depends on nothing but the path, the two locations, the next fid and what comes of
the walks.

A path that has no plan is not found, and nothing is tried. A path without names is
one walk without names, to a fid that is given out. For any other path, the attempts
are along its names. On each of these ways each fid that is established is given
back once, unless it is the one that is given out, and no other fid is given
back. -/
theorem resolve_itinerary (hrun : ((resolve root start path).runIn s).Runs step p (r, t) q) :
    ∃ attempts, Trail step s p attempts t q ∧
      attempts.filterMap Attempt.clunked? ++ returned r =
        attempts.filterMap Attempt.established? ∧
      (∀ fid ∈ attempts.filterMap Attempt.clunked?,
        fid ∈ s.fids.takeMany (Path.components path).length) ∧
      match Path.plan path (startsAtRoot root start) with
      | .error e => attempts = [] ∧ r = .error e ∧ e = .server .notFound
      | .ok plan =>
        (plan.names = [] → ∃ outcome,
          attempts = [.walk (origin root start plan).fid s.fids.take.1 [] outcome] ∧
          r = (fun _ => ⟨s.fids.take.1, (origin root start plan).qid⟩) <$> outcome) ∧
        (plan.names ≠ [] →
          Along root.qid (origin root start plan) s.fids plan.names attempts r ∧
          arrival root.qid (origin root start plan) s.fids plan.names
            (attempts.filterMap Attempt.walked?) = some r) := by
  obtain ⟨attempts, htrail, hcourse⟩ := always_resolve (r, t) q hrun
  refine ⟨attempts, htrail, ?_⟩
  cases hplan : Path.plan path (startsAtRoot root start) with
  | error e =>
    rw [hplan] at hcourse
    obtain ⟨rfl, rfl⟩ := hcourse
    refine ⟨rfl, fun fid hfid => (by cases hfid), rfl, rfl, ?_⟩
    rw [Path.plan] at hplan
    split at hplan
    · exact (Except.error.inj hplan).symm
    · cases hplan
  | ok plan =>
    rw [hplan] at hcourse
    obtain ⟨hclone, hdescent⟩ := hcourse
    by_cases hnames : plan.names = []
    · obtain ⟨outcome, rfl, rfl⟩ := hclone hnames
      refine ⟨?_, fun fid hfid => (by cases hfid), hclone, fun h => absurd hnames h⟩
      cases outcome <;> rfl
    · have hd := hdescent hnames
      have hsettled := hd.settled fun h => absurd h hnames
      rw [Option.toList_none, List.nil_append] at hsettled
      refine ⟨hsettled, fun fid hfid => ?_, fun h => absurd h hnames, fun _ =>
        ⟨hd.along, hd.result⟩⟩
      have hmem := List.mem_append_left (returned r) hfid
      rw [hsettled] at hmem
      rw [← (Path.plan_names hplan).1]
      exact hd.established.mem hmem

end

/-! ## Scripted answers -/

/-- Resolving a path with a scripted peer. -/
def resolving (root start : Location) (path : String) (replies : List Reply) :
    (Except Error Location × Session) × Scripted :=
  Scripted.after ((resolve root start path).runIn {}) { replies }

/-- The request of a transaction on the way. -/
def Move.request : Move → Body
  | .walk fid newfid names => .twalk fid newfid names
  | .clunk fid => .tclunk fid

def exportRoot (fid : UInt32) : Location := ⟨fid, ⟨128, 0, 1⟩⟩

/-- A directory below the root. -/
def below : Location := ⟨101, ⟨128, 0, 2⟩⟩

/-- The answer to a walk through one name. -/
def walkedTo (path : UInt8) : Reply where
  bytes := [22, 0, 0, 0, 111, 1, 0, 1, 0, 128, 0, 0, 0, 0, path, 0, 0, 0, 0, 0, 0, 0]

/-- The answer to a walk without names. -/
def cloned : Reply where
  bytes := [9, 0, 0, 0, 111, 1, 0, 0, 0]

def notThere : Reply where
  bytes := [11, 0, 0, 0, 7, 1, 0, 2, 0, 0, 0]

/-- Up twice, from a directory below the root. The fid of the first step cannot be
given back, and it makes no difference. -/
theorem resolve_itinerary_up_twice :
    ∃ p, ((resolve (exportRoot 100) below "../..").runIn {}).Runs Scripted.Step
        { replies := [walkedTo 1, notThere] }
        (.error (.server .notFound), { fids := { next := 2 } }) p ∧
      ∃ attempts, Trail Scripted.Step {} { replies := [walkedTo 1, notThere] } attempts
          { fids := { next := 2 } } p ∧
        attempts.filterMap Attempt.clunked? = attempts.filterMap Attempt.established? ∧
        Along (exportRoot 100).qid below {} ["..", ".."] attempts (.error (.server .notFound)) := by
  have hresult : (resolving (exportRoot 100) below "../.." [walkedTo 1, notThere]).1 =
      (.error (.server .notFound), { fids := { next := 2 } }) := by decide +kernel
  have hrun := Scripted.runs ((resolve (exportRoot 100) below "../..").runIn {})
    { replies := [walkedTo 1, notThere] }
  rw [show (Scripted.after _ _).1 = _ from hresult] at hrun
  have hplan : Path.plan "../.." (startsAtRoot (exportRoot 100) below) =
      .ok ⟨false, ["..", ".."]⟩ := by decide +kernel
  obtain ⟨attempts, htrail, hsettled, -, hcourse⟩ := resolve_itinerary hrun
  rw [hplan] at hcourse
  obtain ⟨halong, -⟩ := hcourse.2 (by decide)
  rw [returned, List.append_nil] at hsettled
  exact ⟨_, hrun, attempts, htrail, hsettled, halong⟩

/-- Not every passage is along the itinerary: a step up from the root is left out, and
a path without names is not resolved for nothing. And if the fid of the root is handed
out once more, then it is given back. -/
theorem not_along_itinerary :
    (¬ (resolving (exportRoot 100) below "../.." [walkedTo 1, notThere]).2.requests <+:
      (itinerary none 101 {} (Path.components "../..")).map Move.request) ∧
    (¬ (resolving (exportRoot 100) below "." [cloned]).2.requests <+:
      (itinerary none 101 {} (Path.components ".")).map Move.request) ∧
    .tclunk (exportRoot 1).fid ∈
      (resolving (exportRoot 1) below "/a/b" [walkedTo 3, notThere]).2.requests := by
  decide +kernel

end Session

end NineP
