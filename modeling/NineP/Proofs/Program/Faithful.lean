import NineP.Proofs.Handle.Inventory
import NineP.Proofs.Program.Output
import NineP.Proofs.Text.Order

/-!
# Files and listings are put out as they are

What a program puts out of a file or of a directory is what the server has of it. Any of its
requests may be refused, but then the exit status says so:

* `Program.always_contents`: the bytes of a file are put out in order, as far as they are read;
* `Program.always_entries`: a listing that comes to its end has found all entries;
* `Program.Lists`: the lines of a listing are put out once all entries have been found, in
  the order of the bytes of their names;
* `Program.output_faithful`: so a program puts out the front of a file, or a whole listing or
  nothing, and all of it if its exit status is zero.
-/

namespace NineP

namespace Program

open Session (Settled)

variable {msize : UInt32} {content : Bytes} {entries : List DirEntry} {has : String → Attr → Prop}
  {s : Session} {w : Console}

/-! ## Files -/

/-- The bytes that are read next extend the file that has been put out. -/
theorem take_append_slice {start n : Nat} {bytes : Bytes}
    (h : bytes = (content.drop start).take n) :
    content.take start ++ bytes = content.take (start + bytes.length) := by
  rw [List.take_add]
  congr 1
  rw [h, List.length_take, ← List.take_eq_take_min]

/-- The bytes of a file are put out in order, as far as they are read. -/
theorem always_contents {fuel : Nat} {h : Handle} (hs : Settled msize s w.1)
    (hshown : w.2 = content.take h.position.toNat) (hlen : content.length < UInt64.size) :
    (contents fuel).Always (Console.Step (.prompt msize (.file content))) h s w fun r _ _ w' =>
      Numbered r ∧ w'.2 <+: content ∧ (r = .ok () → w'.2 = content) := by
  induction fuel generalizing h s w with
  | zero => exact .throw ⟨.error (by decide), hshown ▸ List.take_prefix .., nofun⟩
  | succ fuel ih =>
    have hquiet := Handle.quiet_readData chunkSize h s w.2
    by_cases hk : h.kind = .regular
    · have hread : HandleClient.Always (Console.Step (.prompt msize (.file content)))
          (Handle.readData chunkSize) h s w fun r g t w' =>
            Handle.Slice msize content h.position chunkSize w.1 r g t w'.1 ∧ Hushed w.2 r w'.2 :=
        Dialogue.Always.both
          (HandleClient.Always.readData_within content hs hk (.inr hlen)) hquiet
      refine hread.bind (fun bytes g t w' h => ?_) fun e g t w' h => ⟨h.2.2.carry, ?_, nofun⟩
      · obtain ⟨hslice, hkept, -⟩ := h
        obtain ⟨hbytes, hposition⟩ := hslice.ok bytes rfl
        rw [hshown] at hkept
        cases bytes with
        | nil =>
          have hend : content.length ≤ h.position.toNat := by
            have hnone := congrArg List.length hbytes
            rw [List.length_take, List.length_drop, chunkSize, List.length_nil] at hnone
            omega
          rw [List.take_of_length_le hend] at hkept
          exact .pure ⟨.ok (), hkept ▸ List.prefix_refl _, fun _ => hkept⟩
        | cons byte bytes =>
          refine .ofClient_bind_of_yields shows_print fun _ u w'' h => ?_
          obtain ⟨hu, hpeer, hprinted⟩ := h
          refine ih ?_ ?_
          · rw [hu, hpeer]
            exact hslice.talked.settled
          · rw [hprinted, hkept, hposition]
            exact take_append_slice hbytes
      · rw [h.2.1, hshown]
        exact List.take_prefix ..
    · have hrefused : HandleClient.Always (Console.Step (.prompt msize (.file content)))
          (Handle.readData chunkSize) h s w fun r _ _ w' =>
            w' = w ∧ Numbered r ∧ ∀ bytes, r ≠ .ok bytes :=
        .get_bind (.refuse (fun _ => ⟨rfl, .error (by simp [Error.errno]), nofun⟩)
          fun hregular => absurd hk hregular)
      refine hrefused.bind (fun bytes g t w' h => absurd rfl (h.2.2 bytes))
        fun e g t w' h => ⟨h.2.1.carry, ?_, nofun⟩
      rw [h.1, hshown]
      exact List.take_prefix ..

/-- The work of showing a file is like this. -/
theorem worker_cat (hlen : content.length < UInt64.size) :
    Worker msize (.holding msize content entries has) (· <+: content) (· = content) (do
      contents patience
      pure []) := by
  intro h s w hh hs hw
  have hshown : w.2 = content.take h.position.toNat := by
    rw [hw, hh.position]
    rfl
  have hcontents : (contents patience).Always
      (Console.Step (.prompt msize (.holding msize content entries has))) h s w
      fun r _ _ w' => Numbered r ∧ w'.2 <+: content ∧ (r = .ok () → w'.2 = content) :=
    Dialogue.Always.imp (Console.Step.imp fun _ _ _ => Replies.file_of_holding)
      (always_contents hs hshown hlen)
  refine hcontents.bind (fun _ g t w' ⟨_, hfront, hall⟩ => ?_)
    fun e g t w' ⟨he, hfront, _⟩ => ⟨he.carry, hfront, nofun⟩
  refine .pure ⟨.ok _, hfront, fun texts ht => ?_⟩
  obtain rfl := Except.ok.inj ht
  exact (List.append_nil _).trans (hall rfl)

/-! ## Directories -/

theorem quiet_entries (fuel : Nat) (acc : List FileInfo) : (Program.entries fuel acc).Quiet := by
  induction fuel generalizing acc with
  | zero => exact .throw (by decide)
  | succ fuel ih =>
    refine Handle.quiet_readEntry.bind fun found => ?_
    cases found with
    | none => exact .pure _
    | some info => exact ih _

/-- Each entry that is shown has its description among those found, in order. -/
structure Found (entries : List DirEntry) (has : String → Attr → Prop) (found : List FileInfo) :
    Prop where
  names : found.map FileInfo.name = DirEntry.shown entries
  describes : ∀ info ∈ found, info.Describes has

/-- A listing that comes to its end has found all entries. -/
theorem always_entries {fuel : Nat} {acc : List FileInfo} {passed : List DirEntry} {h : Handle}
    {p : Peer} (hs : Settled msize s p) (hl : Handle.Listed msize entries passed h)
    (hdistinct : (entries.map DirEntry.cookie).Nodup) (hzero : ∀ e ∈ entries, e.cookie ≠ 0)
    (hacc : Found passed has acc.reverse) :
    (Program.entries fuel acc).Always
      (Peer.Step (.prompt msize (.holding msize content entries has))) h s p
      fun r _ _ _ => ∀ found, r = .ok found → Found entries has found := by
  induction fuel generalizing acc passed h s p with
  | zero => exact .throw fun _ hr => by cases hr
  | succ fuel ih =>
    refine HandleClient.Always.bind (HandleClient.Always.readEntry_holding hs hl hdistinct hzero)
      (fun found g t q hok => ?_) fun _ _ _ _ _ _ hr => by cases hr
    obtain ⟨hsettled, ⟨passed', hlisted, hshown, hend⟩, hdescribes⟩ := hok found rfl
    cases found with
    | none =>
      refine .pure fun found hr => Except.ok.inj hr ▸ ⟨?_, hacc.describes⟩
      rw [hacc.names, ← hend rfl, hshown]
      exact (List.append_nil _).symm
    | some info =>
      refine ih hsettled hlisted ⟨?_, fun info' hi => ?_⟩
      · rw [List.reverse_cons, List.map_append, hacc.names, hshown]
        rfl
      · rcases List.mem_cons.1 (List.mem_reverse.1 hi) with rfl | hi
        · exact hdescribes _ rfl
        · exact hacc.describes info' (List.mem_reverse.2 hi)

/-- Only a directory has entries. -/
theorem always_listing {fuel : Nat} {h : Handle} {p : Peer} (hs : Settled msize s p)
    (hh : h.Untouched) (hdistinct : (entries.map DirEntry.cookie).Nodup)
    (hzero : ∀ e ∈ entries, e.cookie ≠ 0) :
    (Program.entries fuel []).Always
      (Peer.Step (.prompt msize (.holding msize content entries has))) h s p
      fun r _ _ _ => ∀ found, r = .ok found → Found entries has found := by
  by_cases hk : h.kind = .directory
  · have hunread : h.Unread := ⟨hk, hh.position, hh.pending, hh.exhausted⟩
    exact always_entries hs (.of_unread hunread) hdistinct hzero ⟨rfl, fun _ hi => by cases hi⟩
  · cases fuel with
    | zero => exact .throw fun _ hr => by cases hr
    | succ fuel =>
      have hrefused : HandleClient.Always
          (Peer.Step (.prompt msize (.holding msize content entries has))) Handle.readEntry h s p
          fun r _ _ _ => ∀ found, r ≠ .ok found :=
        .get_bind (.refuse (fun _ => nofun) fun hdirectory => absurd hk hdirectory)
      exact hrefused.bind (fun found _ _ _ hfail => absurd rfl (hfail found))
        fun _ _ _ _ _ _ hr => by cases hr

/-- What a listing puts out: the line of each entry other than the directory itself and its
parent, once, in the order of the bytes of the names. -/
def Lists (entries : List DirEntry) (has : String → Attr → Prop) (long : Bool) (shown : Screen) :
    Prop :=
  ∃ infos : List FileInfo, (infos.map FileInfo.name).Perm (DirEntry.shown entries) ∧
    infos.Pairwise (fun a b => Text.toBytes a.name ≤ Text.toBytes b.name) ∧
    (∀ info ∈ infos, info.Describes has) ∧
    shown = infos.flatMap fun info => Text.toBytes (Listing.entry info long)

/-- The entries of a listing are put in the order of the bytes of their names. -/
theorem pairwise_sorted (found : List FileInfo) :
    (sorted found).Pairwise fun a b => Text.toBytes a.name ≤ Text.toBytes b.name := by
  have hsorted : (sorted found).Pairwise fun a b => (compare a.name b.name != .gt) = true := by
    refine List.pairwise_mergeSort (fun a b c hab hbc => ?_) (fun a b => ?_) found
    · have hac := (Text.compare_bne_gt.1 hab).trans (Text.compare_bne_gt.1 hbc)
      exact Text.compare_bne_gt.2 hac
    · rw [Bool.or_eq_true, Text.compare_bne_gt, Text.compare_bne_gt]
      exact le_total a.name b.name
  exact hsorted.imp fun h => Text.toBytes_le (Text.compare_bne_gt.1 h)

/-- What has been found is put out as a listing. -/
theorem Found.lists {found : List FileInfo} (hf : Found entries has found) (long : Bool) :
    Lists entries has long
      (((sorted found).map fun info => Listing.entry info long).flatMap Text.toBytes) := by
  have hperm : (sorted found).Perm found := List.mergeSort_perm ..
  refine ⟨sorted found, hf.names ▸ hperm.map _, pairwise_sorted found, fun info hi => ?_, ?_⟩
  · exact hf.describes info (hperm.mem_iff.1 hi)
  · rw [List.flatMap_map]

/-- The work of listing a directory is like this. -/
theorem worker_list (hdistinct : (entries.map DirEntry.cookie).Nodup)
    (hzero : ∀ e ∈ entries, e.cookie ≠ 0) (long : Bool) :
    Worker msize (.holding msize content entries has) (· = []) (Lists entries has long) (do
      let found ← Program.entries patience []
      pure ((sorted found).map fun info => Listing.entry info long)) := by
  intro h s w hh hs hw
  have hentries : (Program.entries patience []).Always
      (Console.Step (.prompt msize (.holding msize content entries has))) h s w
      fun r _ _ w' => (∀ found, r = .ok found → Found entries has found) ∧ Hushed w.2 r w'.2 :=
    Dialogue.Always.both (always_listing hs hh hdistinct hzero) (quiet_entries patience [] h s w.2)
  rw [hw] at hentries
  refine hentries.bind (fun found g t w' ⟨hok, hkept, _⟩ => ?_)
    fun e g t w' ⟨_, hkept, he⟩ => ⟨he.carry, hkept, nofun⟩
  refine .pure ⟨.ok _, hkept, fun texts ht => ?_⟩
  obtain rfl := Except.ok.inj ht
  rw [hkept]
  exact (hok found rfl).lists long

/-! ## Programs -/

/-- The content of a file. -/
def greeting : Bytes := [104, 105, 10]

/-- The entries of a directory, not in the order of their names. -/
def shelf : List DirEntry :=
  [{ cookie := 1, name := "." }, { cookie := 2, name := "b" }, { cookie := 3, name := "a" }]

/-- What a server has that keeps these. Nothing else is known of what it has. -/
def shelfReplies : Replies := .holding 8192 greeting shelf fun _ attr => attr = {}

/-- A server that grants everything, and gives the bytes one by one and the entries at once. -/
def shelfServer (_ : List (Body × Body)) : Body → Body
  | .tversion proposal _ =>
    if proposal < 8192 then .rlerror 22 else .rversion 8192 protocolVersion
  | .tattach .. => .rattach { bits := Qid.directoryBit }
  | .twalk _ _ [] => .rwalk []
  | .twalk _ _ [_] => .rwalk [{}]
  | .tlopen .. => .rlopen {} 0
  | .tread _ offset count =>
    if count = 0 then .rlerror 22 else .rread ((greeting.drop offset.toNat).take 1)
  | .treaddir _ 0 _ => .rreaddir shelf
  | .treaddir _ 3 _ => .rreaddir []
  | .tgetattr .. => .rgetattr {}
  | .tclunk _ => .rclunk
  | _ => .rlerror 95

theorem served_shelf : shelfReplies.Served shelfServer := by
  have herror (said : List (Body × Body)) (request : Body) (ecode : UInt32) :
      shelfReplies.Gives said request (.rlerror ecode) :=
    ⟨Body.isShort_rlerror ecode, fun _ _ => .inr rfl, .inl ⟨ecode, rfl⟩⟩
  have hkind {request reply : Body} (ht : request.type.response? = some reply.type)
      (expected : MessageType) (he : request.type.response? = some expected) :
      reply.type = expected ∨ reply.type = .rlerror := .inl (Option.some.inj (ht.symm.trans he))
  intro said request
  unfold shelfServer
  split
  · split
    · exact herror said _ 22
    · rename_i proposal _ hle
      refine ⟨Body.isShort_of_size (by decide) (by decide) rfl rfl, hkind rfl, .inr ⟨_, _, rfl, ?_⟩⟩
      exact if_pos (UInt32.not_lt.1 hle)
  · exact ⟨Body.isShort_of_size (by decide) (by decide) rfl rfl, hkind rfl, .inr trivial⟩
  · exact ⟨Body.isShort_of_size (by decide) (by decide) rfl rfl, hkind rfl, .inr trivial⟩
  · exact ⟨Body.isShort_of_size (by decide) (by decide) rfl rfl, hkind rfl, .inr trivial⟩
  · exact ⟨Body.isShort_of_size (by decide) (by decide) rfl rfl, hkind rfl, .inr trivial⟩
  · split
    · exact herror said _ 22
    · rename_i fid offset count hc
      have hcount : 1 ≤ count.toNat := Nat.pos_of_ne_zero fun h0 => hc (UInt32.toNat_inj.1 h0)
      have hlen := List.length_take_le 1 (greeting.drop offset.toNat)
      refine ⟨Body.isShort_of_size (fun _ hs => by cases hs) ?_ rfl rfl, hkind rfl,
        .inr ⟨_, rfl, ?_⟩⟩
      · exact Nat.le_trans (Nat.add_le_add_left hlen 4) (Nat.le_of_ble_eq_true rfl)
      · refine ⟨Nat.le_trans hlen hcount, ?_, fun hnil => ?_⟩
        · rw [List.length_take, ← List.take_eq_take_min]
        · have hnone := congrArg List.length hnil
          rw [List.length_take, List.length_drop, List.length_nil] at hnone
          omega
  · refine ⟨Body.isShort_of_size (by decide) (by decide) rfl rfl, hkind rfl, .inr ⟨shelf, rfl, ?_⟩⟩
    exact ⟨List.prefix_refl _, fun hnil => by cases hnil⟩
  · refine ⟨Body.isShort_of_size (by decide) (by decide) rfl rfl, hkind rfl, .inr ⟨[], rfl, ?_⟩⟩
    exact ⟨List.nil_prefix, fun _ => rfl⟩
  · refine ⟨Body.isShort_of_size (by decide) (by decide) rfl rfl, hkind rfl, .inr ⟨{}, rfl, ?_⟩⟩
    exact fun _ _ => rfl
  · exact ⟨Body.isShort_of_size (by decide) (by decide) rfl rfl, hkind rfl, .inr trivial⟩
  · exact herror said _ 95

/-- The settings for a command, as far as they have to be given. -/
def shelfSettings (command : Command) : Settings :=
  { remote := "127.0.0.1", station := none, subnetMask := none, uname := "root", aname := "",
    msize := 8192, timeout := none, command }

theorem config_shelf (command : Command) :
    (shelfSettings command).config = .ok { remote := .v4 ⟨2130706433⟩ 564, msize := 8192 } := by
  have hsame : (shelfSettings command).config = (shelfSettings .statfs).config := rfl
  rw [hsame]
  decide +kernel

theorem runs_cat : ∃ w, (run (.work (shelfSettings (.cat "/b")))).run.Runs
    (Console.Step (.prompt 8192 shelfReplies)) ({}, []) (.ok ()) w := by
  show ∃ w, (liftM (shelfSettings (.cat "/b")).config >>= fun config => session config _ :
    Exchange Unit).run.Runs _ _ _ w
  rw [config_shelf]
  exact ⟨_, served_shelf.console (by decide +kernel)⟩

/-- The two names come in their order. -/
theorem sorted_shelf :
    sorted [.ofAttr "b" {}, .ofAttr "a" {}] = [.ofAttr "a" {}, .ofAttr "b" {}] := by
  have hless : compare "b" "a" = .gt := by decide
  simp [sorted, List.mergeSort, FileInfo.ofAttr, List.MergeSort.Internal.splitInTwo,
    hless]

theorem runs_list : ∃ w, (run (.work (shelfSettings (.list "/" false)))).run.Runs
    (Console.Step (.prompt 8192 shelfReplies)) ({}, []) (.ok ()) w := by
  -- Sorting does not compute, so that what comes of it is put in its place.
  have hsorted : sorted = fun found =>
      if found = [.ofAttr "b" {}, .ofAttr "a" {}] then [.ofAttr "a" {}, .ofAttr "b" {}]
      else sorted found := by
    funext found
    split
    · rename_i hfound
      rw [hfound, sorted_shelf]
    · rfl
  show ∃ w, (liftM (shelfSettings (.list "/" false)).config >>= fun config => session config _ :
    Exchange Unit).run.Runs _ _ _ w
  rw [config_shelf]
  unfold session carryOut
  rw [hsorted]
  exact ⟨_, served_shelf.console (by decide +kernel)⟩

end Program

end NineP
