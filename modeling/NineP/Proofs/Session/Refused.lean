import Mathlib.Algebra.Order.BigOperators.Group.List
import Mathlib.Algebra.Order.Group.Nat
import NineP.Proofs.Frame.Canonical
import NineP.Proofs.Session.Meaning
import NineP.Resolve

/-!
# What is refused as a mistake of the caller

A request is refused if it cannot be written or does not fit, and nothing is sent
then. No reply and no failure of the stream is taken for that (`Accepted`), so that
what is refused is known beforehand:

* `Session.Query.always_asked`: an operation whose request is sent is not refused;
* `Session.passable`: the names that a walk is sent for;
* `Session.Query.always_listed`: names that a server has listed are among them;
* `Session.Query.always_stepped`: a walk through one name is sent or refused.
-/

namespace NineP

/-- A result that is not the refusal of a mistake. -/
def Accepted (r : Except Error α) : Prop := ∀ e, r = .error e → e.isMisuse = false

namespace Accepted

theorem ok (a : α) : Accepted (.ok a : Except Error α) := fun _ h => by cases h

theorem error {e : Error} (h : e.isMisuse = false) : Accepted (.error e : Except Error α) :=
  fun _ he => Except.error.inj he ▸ h

theorem of_error {e : Error} (h : Accepted (.error e : Except Error α)) :
    Accepted (.error e : Except Error β) := .error (h e rfl)

theorem map {r : Except Error α} (h : Accepted r) (f : α → β) : Accepted (f <$> r) := by
  cases r with
  | ok a => exact .ok (f a)
  | error e => exact h.of_error

theorem not_misuse {r : Except Error α} {misuse : Misuse} (h : Accepted r) :
    r ≠ .error (.invalidParameter misuse) := fun hr => by cases h _ hr

end Accepted

/-- What was sent and received is added to the record, as one exchange of these. -/
def Wire.Entered (request : Body) (log log' : Wire) : Prop :=
  ∃ entry answer, log' = entry :: log ∧ Wire.exchanged? entry = some (request, answer)

namespace Session

namespace Query

variable {α : Type} {s : Session} {op : Query α} {log : Wire} {fid new : UInt32}

/-- A sent request is not refused. -/
theorem Recorded.accepted {r : Except Error α} {log' : Wire} (h : op.Recorded s log r log')
    (hs : op.Sendable s) : Accepted r := by
  obtain ⟨request, hf, -⟩ := sends_of_sendable hs
  cases h with
  | unsent he => cases hf.symm.trans he
  | answered _ _ _ hr => exact fun e he => (ofResponse_of_verdict (he ▸ hr)).isMisuse
  | @lost _ _ e _ _ he =>
    refine .error ?_
    cases e with
    | invalidParameter => cases he
    | _ => rfl

/-- An operation whose request fits enters it into the record, and it is not
refused. -/
theorem always_asked (hs : op.Sendable s) (hc : (op.body s).CountsHold) :
    Client.Always Wire.Step op.perform s log fun r t log' =>
      t = op.leaves s r ∧ Accepted r ∧ Wire.Entered (op.body s).known log log' := by
  refine always_recorded.mono fun r t log' ⟨ht, h⟩ => ⟨ht, h.accepted hs, ?_⟩
  obtain ⟨request, hf, -⟩ := sends_of_sendable hs
  cases h.told hc with
  | unsent he => cases hf.symm.trans he
  | sent he => exact ⟨_, _, rfl, he⟩

theorem sendable_of_isPlain (h : op.isPlain = true) (hs : minMsize ≤ s.msize) :
    op.Sendable s :=
  let ⟨_, hf⟩ := sends_of_isPlain h hs
  sendable_of_sends hf

end Query

/-! ## Walks -/

/-- The bytes of a walk through one name, that of the name itself aside. -/
def stepOverhead : Nat := 19

/-- Whether a walk through a name is sent if messages may have so many bytes. -/
def passable (msize : UInt32) (name : String) : Bool :=
  name.utf8ByteSize ≤ Codec.maxTextSize && stepOverhead + name.utf8ByteSize ≤ msize.toNat

theorem passable_iff {msize : UInt32} {name : String} :
    passable msize name = true ↔ name.utf8ByteSize ≤ Codec.maxTextSize ∧
      stepOverhead + name.utf8ByteSize ≤ msize.toNat := by
  rw [passable, Bool.and_eq_true, decide_eq_true_iff, decide_eq_true_iff]

namespace Query

variable {s : Session} {log : Wire} {fid new : UInt32} {name : String}

theorem max_self (msize : UInt32) : max msize msize = msize := by
  show (if msize ≤ msize then msize else msize) = msize
  rw [if_pos (UInt32.le_refl msize)]

theorem sendable_walk_nil (hs : minMsize ≤ s.msize) : (walk fid new []).Sendable s := by
  refine ⟨rfl, fun _ h => (by cases h), ?_⟩
  have hleast : 256 ≤ s.msize.toNat := UInt32.le_iff_toNat_le.1 hs
  show 17 ≤ (max s.msize s.msize).toNat
  rw [max_self]
  omega

/-- The walks that are sent are those through passable names. -/
theorem sendable_step_iff : (walk fid new [name]).Sendable s ↔ passable s.msize name = true := by
  have hsize : 4 + (Message.mk (walk fid new [name]).tag ((walk fid new [name]).body s)).size =
      stepOverhead + name.utf8ByteSize := by
    show 4 + (1 + 2 + (4 + 4 + 2 + (2 + name.utf8ByteSize + 0))) = 19 + name.utf8ByteSize
    omega
  rw [passable_iff]
  constructor
  · intro h
    have hfits := h.size
    rw [hsize] at hfits
    exact ⟨h.texts name (List.mem_singleton.2 rfl), (max_self s.msize) ▸ hfits⟩
  · intro ⟨htext, hfits⟩
    refine ⟨rfl, fun text ht => List.mem_singleton.1 ht ▸ htext, ?_⟩
    rw [hsize]
    show _ ≤ (max s.msize s.msize).toNat
    rwa [max_self]

/-- A walk through one name is sent, or it is refused and nothing is. -/
theorem always_stepped :
    Client.Always Wire.Step (Session.walk fid new [name]) s log fun r t log' => t = s ∧
      ((passable s.msize name = true ∧ Accepted r ∧
          Wire.Entered (.twalk fid new [name]) log log') ∨
        (passable s.msize name = false ∧ log' = log ∧ ∃ e, r = .error e)) := by
  let op : Query (List Qid) := .walk fid new [name]
  show Client.Always Wire.Step op.perform s log _
  by_cases hp : passable s.msize name = true
  · refine (always_asked (sendable_step_iff.2 hp) (Nat.le_of_ble_eq_true rfl)).mono ?_
    exact fun r t log' ⟨ht, ha, he⟩ => ⟨ht, .inl ⟨hp, ha, he⟩⟩
  · have hs : ¬ op.Sendable s := fun h => hp (sendable_step_iff.1 h)
    refine always_recorded.mono fun r t log' ⟨ht, h⟩ => ⟨ht, .inr ⟨?_, ?_⟩⟩
    · exact Bool.not_eq_true _ ▸ hp
    obtain ⟨hs', -⟩ | ⟨-, hlog, misuse, hr⟩ := h.request
    · exact absurd hs' hs
    · exact ⟨hlog, _, hr⟩

/-- A name that was listed can be walked to: its entry is longer than the rest of a
walk. -/
theorem always_listed {cookie : UInt64} {count : UInt32} (hs : minMsize ≤ s.msize) :
    Client.Always Wire.Step (Session.readdir fid cookie count) s log fun r t log' =>
      t = s ∧ Accepted r ∧
        Wire.Entered (.treaddir fid cookie (min count s.readdirCeiling)) log log' ∧
        ∀ entries, r = .ok entries → ∀ e ∈ entries, passable s.msize e.name = true := by
  let op : Query (List DirEntry) := .readdir fid cookie count
  show Client.Always Wire.Step op.perform s log _
  have hsend : op.Sendable s := sendable_of_isPlain rfl hs
  have hboth : Client.Always Wire.Step op.perform s log fun r t log' =>
      (t = op.leaves s r ∧ Accepted r ∧ Wire.Entered (op.body s).known log log') ∧
        op.Recorded s log r log' :=
    fun r log' hrun => ⟨always_asked hsend trivial r log' hrun, (always_recorded r log' hrun).2⟩
  refine hboth.mono fun r t log' ⟨⟨ht, ha, he⟩, hr⟩ => ⟨ht, ha, he, fun entries hok e hmem => ?_⟩
  subst hok
  cases hr with
  | answered _ _ hmost hverdict =>
    obtain ⟨⟨tag, body⟩, hd, -, hreading⟩ := (verdict_eq_ok (fun h => by cases h)).1 hverdict
    cases body with
    | rreaddir found =>
      obtain rfl := Except.ok.inj (Option.some.inj hreading)
      obtain ⟨hsize, htexts⟩ := Frame.size_of_decode hd
      have hentry : e.wireSize ≤ (found.map DirEntry.wireSize).sum :=
        List.single_le_sum (fun _ _ => Nat.zero_le _) _ (List.mem_map_of_mem hmem)
      refine passable_iff.2 ⟨htexts e.name (List.mem_map_of_mem hmem), ?_⟩
      have hwire : e.wireSize = 24 + e.name.utf8ByteSize := by
        show 13 + 8 + 1 + (2 + e.name.utf8ByteSize) = 24 + e.name.utf8ByteSize
        omega
      have hsize : 4 + (1 + 2 + (4 + (found.map DirEntry.wireSize).sum)) ≤ s.msize.toNat :=
        hsize ▸ hmost
      simp only [stepOverhead]
      omega
    | _ => cases hreading

end Query

end Session

end NineP
