import NineP.Proofs.Session.Operation
import NineP.Proofs.Strict.Agreement

/-!
# Sessions within bounds

A response is received into a buffer whose rest is known as the difference of two
sizes, its type and its tag are taken out of the places that they have in a frame, and
the largest payload is the difference of the message size and the framing. All of
these are there.

* `Strict.exchange_within`: a response that is received has a whole header, if no
  receive gives more than was asked for;
* `Strict.Session.judge_within`: so its type and its tag are there, and so is the
  number of an error report;
* `Strict.Session.walk_within` and those like it: the operations of a session are
  within bounds.
-/

namespace NineP.Strict

variable {σ : Type} {step : σ → Call → Answer → σ → Prop}

/-- No receive gives more than was asked for. -/
def Sized (step : σ → Call → Answer → σ → Prop) : Prop :=
  ∀ p most bytes q, step p (.receive most) (.done bytes) q → bytes.length ≤ most

/-! ## Exchanges -/

namespace Exchange

theorem call_within {c : Call} {R : Bytes → Prop}
    (h : ∀ p bytes q, step p c (.done bytes) q → R bytes) :
    Within step (NineP.Exchange.call c) R := by
  refine Strict.Agrees.map (Strict.Agrees.call fun p answer q hs => ?_)
  cases answer with
  | done bytes => exact .ok (h p bytes q hs)
  | failed e => exact .error e
  | stalled => exact .error _

theorem perform_within {c : Call} : Within step (NineP.Exchange.perform c) fun _ => True :=
  .bind (call_within (R := fun _ => True) fun _ _ _ _ => trivial) fun _ _ => .pure trivial

variable (hsized : Sized step)

include hsized

theorem receive_within (most : Nat) :
    Within step (NineP.Exchange.receive most) fun bytes => bytes.length ≤ most := by
  refine .bind (call_within fun p bytes q hs => hsized p most bytes q hs) fun bytes hlen => ?_
  exact .relies hlen (.pure (List.length_take_le ..))

/-- What is received is what was wanted. -/
theorem collectFrom_within (fuel wanted : Nat) (acc : Bytes) :
    Within step (NineP.Exchange.collectFrom fuel wanted acc)
      fun bytes => bytes.length = acc.length + wanted := by
  induction fuel generalizing wanted acc with
  | zero =>
    cases wanted with
    | zero => exact .pure (List.length_reverse ..)
    | succ wanted => exact .throw
  | succ fuel ih =>
    cases wanted with
    | zero => exact .pure (List.length_reverse ..)
    | succ wanted =>
      refine .bind (receive_within hsized (wanted + 1)) fun bytes hlen => ?_
      refine .branch (fun _ => .throw) fun _ => .relies hlen ?_
      have hrest := ih (wanted + 1 - bytes.length) (bytes.reverseAux acc)
      rw [List.reverseAux_eq, List.length_append, List.length_reverse,
        show bytes.length + acc.length + (wanted + 1 - bytes.length) = acc.length + (wanted + 1) by
          omega] at hrest
      rw [List.reverseAux_eq]
      exact hrest

theorem collect_within (wanted : Nat) :
    Within step (NineP.Exchange.collect wanted) fun bytes => bytes.length = wanted := by
  have h := collectFrom_within hsized wanted wanted []
  rwa [List.length_nil, Nat.zero_add] at h

end Exchange

/-- A response that is received has a whole header. -/
theorem exchange_within (hsized : Sized step) (request : Bytes) (capacity : Nat)
    (limit : Option UInt64) :
    Exchange.Within step (exchange request capacity limit)
      fun frame => headerSize ≤ frame.length := by
  refine .bind Exchange.perform_within fun _ _ => ?_
  refine .bind (Exchange.collect_within hsized Frame.sizeWidth) fun field hfield => ?_
  refine .relies (Nat.le_of_eq hfield.symm) (.refuse fun _ => .refuse fun hs => ?_)
  have hwidth : Frame.sizeWidth ≤ LittleEndian.decode field :=
    Nat.le_trans (by decide) (Nat.not_lt.1 hs)
  refine .relies hwidth ?_
  refine .bind (Exchange.collect_within hsized _) fun rest hrest => .pure ?_
  rw [List.length_append, hfield, hrest, Nat.add_sub_of_le hwidth]
  exact Nat.not_lt.1 hs

/-! ## Transactions -/

namespace Session

/-- What is not too short to be an error report holds its number. -/
theorem report_within (frame : Bytes) :
    Client.Within step (report frame) fun _ => True := by
  refine .branch (fun _ => .throw) fun hl => .relies (Nat.not_lt.1 hl) ?_
  generalize LittleEndian.decode ((frame.drop 7).take 4) = ecode
  cases ecode with
  | zero => exact .pure trivial
  | succ ecode => exact .throw

/-- In a frame with a whole header there are a tag and a type. -/
theorem judge_within (tag : UInt16) (expected : MessageType) {frame : Bytes}
    (h : headerSize ≤ frame.length) :
    Client.Within step (NineP.Session.judge tag expected frame) fun _ => True := by
  refine .relies h (.refuse fun _ => .branch (fun _ => .pure trivial) fun _ => ?_)
  refine .branch (fun _ => ?_) fun _ => .throw
  exact .bind (report_within frame) fun _ _ => .throw

theorem freshFid_within : Client.Within step NineP.Client.freshFid fun _ => True :=
  fun _ hs => Strict.Agrees.pure ⟨hs, .ok trivial⟩

theorem shutdown_within : Client.Within step NineP.Session.shutdown fun _ => True :=
  .ofExchange Exchange.perform_within

/-- The framing of a read fits every message size that is not too small. -/
theorem readOverhead_le {s : NineP.Session} (h : minMsize ≤ s.msize) :
    NineP.Session.readOverhead ≤ s.msize :=
  UInt32.le_trans (by decide) h

variable (hsized : Sized step)

include hsized

theorem transaction_within (tag : UInt16) (body : Body) (capacity : UInt32) :
    Client.Within step (NineP.Session.transaction tag body capacity)
      fun frame => headerSize ≤ frame.length := by
  refine .get_bind fun s _ => .lift_bind fun found _ => ?_
  refine .bind (.ofExchange (exchange_within hsized ..)) fun frame hframe => ?_
  exact .bind (judge_within tag found.2 hframe) fun _ _ => .pure hframe

theorem request_within (tag : UInt16) (body : Body) (capacity : UInt32) :
    Client.Within step (NineP.Session.request tag body capacity) fun _ => True := by
  refine .bind (transaction_within hsized tag body capacity) fun frame _ => ?_
  cases Frame.decode frame with
  | ok m => exact .pure trivial
  | error fault => exact .throw

theorem call_within (body : Body) :
    Client.Within step (NineP.Session.call body) fun _ => True :=
  .get_bind fun s _ => request_within hsized sessionTag body s.msize

/-! ## Operations -/

theorem negotiate_within (proposal : UInt32) :
    Client.Within step (NineP.Session.negotiate proposal) fun _ => True := by
  unfold Client.Within NineP.Session.negotiate
  refine .refuse fun hproposal => ?_
  refine .bind (request_within hsized _ _ _) fun b _ => ?_
  cases b with
  | rversion msize version =>
    refine .refuse fun _ => .refuse fun hmsize => .modify_bind (fun s _ => ?_) (.pure trivial)
    show minMsize ≤ if msize ≤ proposal then msize else proposal
    split
    · exact UInt32.not_lt.1 hmsize
    · exact UInt32.not_lt.1 hproposal
  | _ => exact .throw

theorem attach_within (uname aname : String) :
    Client.Within step (NineP.Session.attach uname aname) fun _ => True := by
  refine .bind freshFid_within fun fid _ => .bind (call_within hsized _) fun b _ => ?_
  cases b with
  | rattach => exact .pure trivial
  | _ => exact .throw

theorem walk_within (fid newfid : UInt32) (names : List String) :
    Client.Within step (NineP.Session.walk fid newfid names)
      fun qids => qids.length = names.length := by
  refine .bind (call_within hsized _) fun b _ => ?_
  cases b with
  | rwalk qids => exact .refuse fun hmore => .refuse fun hless => .pure (by omega)
  | _ => exact .throw

theorem lopen_within (fid flags : UInt32) :
    Client.Within step (NineP.Session.lopen fid flags) fun _ => True := by
  refine .bind (call_within hsized _) fun b _ => ?_
  cases b with
  | rlopen => exact .pure trivial
  | _ => exact .throw

theorem getattr_within (fid : UInt32) (mask : AttrMask) :
    Client.Within step (NineP.Session.getattr fid mask) fun _ => True := by
  refine .bind (call_within hsized _) fun b _ => ?_
  cases b with
  | rgetattr => exact .pure trivial
  | _ => exact .throw

theorem statfs_within (fid : UInt32) :
    Client.Within step (NineP.Session.statfs fid) fun _ => True := by
  refine .bind (call_within hsized _) fun b _ => ?_
  cases b with
  | rstatfs => exact .pure trivial
  | _ => exact .throw

/-- No more is read than was asked for. -/
theorem read_within (fid : UInt32) (offset : UInt64) (count : UInt32) :
    Client.Within step (NineP.Session.read fid offset count)
      fun data => data.length ≤ count.toNat := by
  refine .get_bind fun s hs => .relies (readOverhead_le hs) ?_
  refine .bind (call_within hsized _) fun b _ => ?_
  cases b with
  | rread data =>
    refine .refuse fun hdata => .pure (Nat.le_trans (Nat.not_lt.1 hdata) ?_)
    show (if count ≤ s.readCeiling then count else s.readCeiling).toNat ≤ count.toNat
    split
    · exact Nat.le_refl _
    · rename_i hmore
      exact UInt32.le_iff_toNat_le.1 (UInt32.le_of_lt (UInt32.not_le.1 hmore))
  | _ => exact .throw

theorem readdir_within (fid : UInt32) (cookie : UInt64) (count : UInt32) :
    Client.Within step (NineP.Session.readdir fid cookie count) fun _ => True := by
  refine .get_bind fun s hs => .relies (readOverhead_le hs) ?_
  refine .bind (call_within hsized _) fun b _ => ?_
  cases b with
  | rreaddir => exact .pure trivial
  | _ => exact .throw

theorem readlink_within (fid : UInt32) :
    Client.Within step (NineP.Session.readlink fid) fun _ => True := by
  refine .get_bind fun s _ => .bind (transaction_within hsized _ _ _) fun frame hframe => ?_
  exact .relies hframe (.lift fun _ _ => trivial)

theorem clunk_within (fid : UInt32) :
    Client.Within step (NineP.Session.clunk fid) fun _ => True := by
  refine .bind (call_within hsized _) fun b _ => ?_
  cases b with
  | rclunk => exact .pure trivial
  | _ => exact .throw

end Session

end NineP.Strict
