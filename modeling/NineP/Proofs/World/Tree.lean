import Mathlib.Logic.Function.Basic
import NineP.Path
import NineP.Proofs.World.Prompt

/-!
# Servers that export a tree

A server whose objects are the nodes of a tree, and the fids that it has bound to
them: a walk of one name goes to the child of that name, or up, and a walk of no
names binds the new fid to the node of the old one.

* `Tree.follow`: where names lead from a node, without going up from the top;
* `Tree.follow_of_climbing`: names that climb above the level from which they start
  lead nowhere;
* `Tree.bindings`: which fids are bound after all that has been said;
* `Replies.exporting`: what such a server answers, and `Tree.served`, that there is
  one.
-/

namespace NineP

/-- A tree of objects. The root is its own parent, and no two objects have the same
path in their identities. -/
structure Tree (Node : Type) where
  root : Node
  parent : Node → Node
  child? : Node → String → Option Node
  qid : Node → Qid
  parent_root : parent root = root
  parent_of_child : ∀ {n c : Node} {name : String}, child? n name = some c → parent c = n
  path_injective : ∀ {m n : Node}, (qid m).path = (qid n).path → m = n

namespace Tree

variable {Node : Type} (tree : Tree Node)

/-- Where a name leads from a node. -/
def step (n : Node) (name : String) : Option Node :=
  if name = Path.parent then some (tree.parent n) else tree.child? n name

/-- Where names lead from a node. -/
def steps (n : Node) : List String → Option Node
  | [] => some n
  | name :: names => (tree.step n name).bind fun c => steps c names

/-- Where names lead from a node without going up from the node `top`. -/
def follow [DecidableEq Node] (top n : Node) : List String → Option Node
  | [] => some n
  | name :: names =>
    if name = Path.parent ∧ n = top then none
    else (tree.step n name).bind fun c => follow top c names

/-- The node lies that many levels below `top`. -/
inductive Below (top : Node) : (depth : Nat) → Node → Prop where
  | top : Below top 0 top
  | child {depth : Nat} {n c : Node} {name : String} : Below top depth n →
    tree.child? n name = some c → Below top (depth + 1) c

variable {tree}

/-- Names that climb above `top` lead nowhere, as they come by `top` on their way up
if they come that far. -/
theorem follow_of_climbing [DecidableEq Node] {top n : Node} {depth : Nat} {names : List String}
    (hb : tree.Below top depth n) (hc : Path.staysBelow depth names = false) :
    tree.follow top n names = none := by
  induction names generalizing n depth with
  | nil => cases hc
  | cons name names ih =>
    rw [follow]
    by_cases hup : name = Path.parent
    · rw [Path.staysBelow.eq_def] at hc
      simp only [hup, if_true] at hc
      cases hb with
      | top => rw [if_pos ⟨hup, rfl⟩]
      | child hm hchild =>
        by_cases htop : n = top
        · rw [if_pos ⟨hup, htop⟩]
        · rw [if_neg fun h => htop h.2, step, if_pos hup, tree.parent_of_child hchild]
          exact ih hm hc
    · rw [if_neg fun h => hup h.1, step, if_neg hup]
      rw [Path.staysBelow.eq_def] at hc
      simp only [hup, if_false] at hc
      cases hchild : tree.child? n name with
      | none => rfl
      | some c => exact ih (.child hb hchild) hc

/-! ## Fids -/

variable (tree)

/-- What a request and its reply make of the fids that are bound. -/
def grant (bound : UInt32 → Option Node) : (request reply : Body) → UInt32 → Option Node
  | .twalk fid newfid names, .rwalk qids =>
    if qids.length = names.length then
      Function.update bound newfid ((bound fid).bind fun n => tree.steps n names)
    else bound
  | .tclunk fid, _ => Function.update bound fid none
  | _, _ => bound

/-- The fids that are bound after all that has been said, if those in `initial` were
at first. -/
def bindings (initial : UInt32 → Option Node) (said : List (Body × Body)) :
    UInt32 → Option Node :=
  said.foldr (fun x bound => tree.grant bound x.1 x.2) initial

/-- The reply to a walk of one name. -/
def answer (n : Node) (name : String) : Body :=
  match tree.step n name with
  | some c => .rwalk [tree.qid c]
  | none => .rlerror 2

/-- Whether a request may have this reply: walks from fids that are bound are
answered by the tree. -/
def MayAnswer (initial : UInt32 → Option Node) (said : List (Body × Body)) :
    (request reply : Body) → Prop
  | .twalk fid _ [], reply => (tree.bindings initial said fid).isSome → reply = .rwalk []
  | .twalk fid _ [name], reply =>
    ∀ n, tree.bindings initial said fid = some n → reply = tree.answer n name
  | _, _ => True

/-- A server that answers like that. -/
def server (initial : UInt32 → Option Node) (said : List (Body × Body)) : Body → Body
  | .twalk _ _ [] => .rwalk []
  | .twalk fid _ [name] =>
    match tree.bindings initial said fid with
    | some n => tree.answer n name
    | none => .rlerror 9
  | .tclunk _ => .rclunk
  | _ => .rlerror 95

variable {tree} {initial : UInt32 → Option Node}

theorem isShort_answer (n : Node) (name : String) : (tree.answer n name).IsShort := by
  unfold answer
  cases tree.step n name with
  | none => exact Body.isShort_rlerror 2
  | some c => exact Body.isShort_of_size (fun _ hs => by cases hs) (Nat.le_of_ble_eq_true rfl) rfl rfl

theorem type_answer (n : Node) (name : String) :
    (tree.answer n name).type = .rwalk ∨ (tree.answer n name).type = .rlerror := by
  unfold answer
  cases tree.step n name with
  | none => exact .inr rfl
  | some c => exact .inl rfl

theorem server_spec (tree : Tree Node) (initial : UInt32 → Option Node)
    (said : List (Body × Body)) (request : Body) :
    tree.MayAnswer initial said request (tree.server initial said request) ∧
      (tree.server initial said request).IsShort ∧
      ∀ expected, request.type.response? = some expected →
        (tree.server initial said request).type = expected ∨
          (tree.server initial said request).type = .rlerror := by
  have failed (ecode : UInt32) : (Body.rlerror ecode).IsShort := Body.isShort_rlerror ecode
  cases request with
  | twalk fid newfid names =>
    match names with
    | [] =>
      exact ⟨fun _ => rfl, Body.isShort_of_size (fun _ hs => by cases hs)
        (Nat.le_of_ble_eq_true rfl) rfl rfl, fun expected he => .inl (Option.some.inj he)⟩
    | [name] =>
      have hserver : tree.server initial said (.twalk fid newfid [name]) =
        match tree.bindings initial said fid with
        | some n => tree.answer n name
        | none => .rlerror 9 := rfl
      rw [hserver]
      cases hb : tree.bindings initial said fid with
      | none =>
        refine ⟨fun n hn => ?_, failed 9, fun _ _ => .inr rfl⟩
        rw [hb] at hn
        cases hn
      | some n =>
        refine ⟨fun n' hn => ?_, isShort_answer n name, fun expected he => ?_⟩
        · rw [hb] at hn
          rw [Option.some.inj hn]
        · rw [← Option.some.inj he]
          exact type_answer n name
    | _ :: _ :: _ => exact ⟨trivial, failed 95, fun _ _ => .inr rfl⟩
  | tclunk fid =>
    exact ⟨trivial, Body.isShort_of_size (fun _ hs => by cases hs) (Nat.le_of_ble_eq_true rfl)
      rfl rfl, fun expected he => .inl (Option.some.inj he)⟩
  | _ => exact ⟨trivial, failed 95, fun _ _ => .inr rfl⟩

end Tree

variable {Node : Type}

/-- The replies of a server that exports a tree, if the fids in `initial` were bound
at first. -/
def Replies.exporting (tree : Tree Node) (initial : UInt32 → Option Node) : Replies where
  allowed := tree.MayAnswer initial
  total said request expected he := by
    obtain ⟨hallowed, hshort, htype⟩ := Tree.server_spec tree initial said request
    exact ⟨_, hallowed, htype expected he, hshort⟩

theorem Tree.served (tree : Tree Node) (initial : UInt32 → Option Node) :
    (Replies.exporting tree initial).Served (tree.server initial) := by
  intro said request
  obtain ⟨hallowed, hshort, htype⟩ := server_spec tree initial said request
  exact ⟨hshort, htype, hallowed⟩

end NineP
