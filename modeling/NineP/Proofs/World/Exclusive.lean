import NineP.Proofs.World.Tree

/-!
# Servers that bind a fid once

A server that exports a tree to clients who keep many fids: a walk of at most one name
is granted as far as the tree allows, but never to a fid that is in use, and a fid that
is in use is opened whenever that is asked for.

* `Tree.granted`: the reply to a walk to a free fid;
* `Replies.exclusive`: what such a server answers, and `Tree.served_exclusive`, that
  there is one.
-/

namespace NineP

namespace Tree

variable {Node : Type} (tree : Tree Node)

/-- The reply to a walk to a fid that is free: as many identities as names. -/
def granted (n : Node) (names : List String) : Body :=
  match tree.steps n names with
  | some c => .rwalk (names.map fun _ => tree.qid c)
  | none => .rlerror 2

/-- Whether a request from a fid that is in use may have this reply. -/
def MayGrant (initial : UInt32 → Option Node) (said : List (Body × Body)) :
    (request reply : Body) → Prop
  | .twalk fid newfid names, reply => names.length ≤ 1 →
    ∀ n, tree.bindings initial said fid = some n →
      if (tree.bindings initial said newfid).isSome then reply.type = .rlerror
      else reply = tree.granted n names
  | .tlopen fid _, reply => ∀ n, tree.bindings initial said fid = some n →
    ∃ iounit, reply = .rlopen (tree.qid n) iounit
  | _, _ => True

/-- A server that answers like that. -/
def keeper (initial : UInt32 → Option Node) (said : List (Body × Body)) : Body → Body
  | .twalk fid newfid names =>
    match tree.bindings initial said fid, tree.bindings initial said newfid with
    | some n, none => if names.length ≤ 1 then tree.granted n names else .rlerror 95
    | _, _ => .rlerror 9
  | .tlopen fid _ =>
    match tree.bindings initial said fid with
    | some n => .rlopen (tree.qid n) 0
    | none => .rlerror 9
  | .tclunk _ => .rclunk
  | _ => .rlerror 95

variable {tree} {initial : UInt32 → Option Node}

theorem isShort_granted (n : Node) {names : List String} (h : names.length ≤ 1) :
    (tree.granted n names).IsShort := by
  unfold granted
  cases tree.steps n names with
  | none => exact Body.isShort_rlerror 2
  | some c =>
    have htexts (qids : List Qid) : ∀ s ∈ (Body.rwalk qids).texts,
        s.utf8ByteSize ≤ Codec.maxTextSize := fun _ hs => by cases hs
    match names, h with
    | [], _ => exact Body.isShort_of_size (htexts _) (Nat.le_of_ble_eq_true rfl) rfl rfl
    | [_], _ => exact Body.isShort_of_size (htexts _) (Nat.le_of_ble_eq_true rfl) rfl rfl

theorem type_granted (n : Node) (names : List String) :
    (tree.granted n names).type = .rwalk ∨ (tree.granted n names).type = .rlerror := by
  unfold granted
  cases tree.steps n names with
  | none => exact .inr rfl
  | some c => exact .inl rfl

theorem keeper_spec (tree : Tree Node) (initial : UInt32 → Option Node)
    (said : List (Body × Body)) (request : Body) :
    tree.MayGrant initial said request (tree.keeper initial said request) ∧
      (tree.keeper initial said request).IsShort ∧
      ∀ expected, request.type.response? = some expected →
        (tree.keeper initial said request).type = expected ∨
          (tree.keeper initial said request).type = .rlerror := by
  have failed (ecode : UInt32) : (Body.rlerror ecode).IsShort := Body.isShort_rlerror ecode
  cases request with
  | twalk fid newfid names =>
    simp only [MayGrant, keeper]
    cases hfid : tree.bindings initial said fid with
    | none => exact ⟨by simp, failed 9, fun _ _ => .inr rfl⟩
    | some n =>
      cases hnew : tree.bindings initial said newfid with
      | some m => exact ⟨by simp [Body.type], failed 9, fun _ _ => .inr rfl⟩
      | none =>
        by_cases hlen : names.length ≤ 1
        · simp only [hlen, if_true]
          refine ⟨by simp, isShort_granted n hlen, fun expected he => ?_⟩
          obtain rfl := Option.some.inj he
          exact type_granted n names
        · exact ⟨fun h => absurd h hlen, by simpa [hlen] using failed 95,
            fun _ _ => .inr (by simp [hlen, Body.type])⟩
  | tlopen fid flags =>
    simp only [MayGrant, keeper]
    cases hfid : tree.bindings initial said fid with
    | none => exact ⟨by simp, failed 9, fun _ _ => .inr rfl⟩
    | some n =>
      refine ⟨by simp, ?_, fun expected he => .inl (Option.some.inj he)⟩
      exact Body.isShort_of_size (by simp [Body.texts]) (Nat.le_of_ble_eq_true rfl) rfl rfl
  | tclunk fid =>
    exact ⟨trivial, Body.isShort_of_size (fun _ hs => by cases hs) (Nat.le_of_ble_eq_true rfl)
      rfl rfl, fun expected he => .inl (Option.some.inj he)⟩
  | _ => exact ⟨trivial, failed 95, fun _ _ => .inr rfl⟩

end Tree

variable {Node : Type}

/-- The replies of a server that exports a tree and binds no fid twice, if the fids in
`initial` were bound at first. -/
def Replies.exclusive (tree : Tree Node) (initial : UInt32 → Option Node) : Replies where
  allowed := tree.MayGrant initial
  total said request expected he := by
    obtain ⟨hallowed, hshort, htype⟩ := Tree.keeper_spec tree initial said request
    exact ⟨_, hallowed, htype expected he, hshort⟩

theorem Tree.served_exclusive (tree : Tree Node) (initial : UInt32 → Option Node) :
    (Replies.exclusive tree initial).Served (tree.keeper initial) := by
  intro said request
  obtain ⟨hallowed, hshort, htype⟩ := keeper_spec tree initial said request
  exact ⟨hshort, htype, hallowed⟩

end NineP
