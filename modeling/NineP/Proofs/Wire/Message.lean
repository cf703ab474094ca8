import NineP.Proofs.Wire.Values
import NineP.Wire.Message

/-!
# Messages on the wire

What a message takes on the wire, stated beside the codec: its texts, its size
and whether the counts of its lists hold. Then the law of the codec of messages:

* `Carries.body`: a body whose texts fit is written in its size, and is read
  back up to the counts of its lists;
* `Body.counted_of_countsHold`, `Body.surplus_pos`: nothing is left of a body
  whose counts hold, and something of every other;
* `Carries.message`: the same of a message.
-/

namespace NineP

namespace Body

/-- The texts in a body. -/
def texts : Body → List String
  | .rreadlink target => [target]
  | .rreaddir entries => entries.map DirEntry.name
  | .tattach _ _ uname aname => [uname, aname]
  | .tversion _ version | .rversion _ version => [version]
  | .twalk _ _ names => names
  | _ => []

/-- The number of bytes of a body. -/
def size : Body → Nat
  | .rlerror _ | .tstatfs _ | .treadlink _ | .tclunk _ => 4
  | .rstatfs _ => 60
  | .tlopen .. => 4 + 4
  | .rlopen .. => 13 + 4
  | .rreadlink target => Text.wireSize target
  | .tgetattr .. => 4 + 8
  | .rgetattr _ => 153
  | .treaddir .. | .tread .. => 4 + 8 + 4
  | .rreaddir entries => 4 + (entries.map DirEntry.wireSize).sum
  | .tattach _ _ uname aname => 4 + 4 + Text.wireSize uname + Text.wireSize aname
  | .rattach _ => 13
  | .tversion _ version | .rversion _ version => 4 + Text.wireSize version
  | .twalk _ _ names => 4 + 4 + 2 + (names.map Text.wireSize).sum
  | .rwalk qids => 2 + 13 * qids.length
  | .rread data => 4 + data.length
  | .rclunk => 0

/-- Whether the 16-bit counts of a body's lists are the lists' lengths. -/
def CountsHold : Body → Prop
  | .twalk _ _ names => names.length ≤ 65535
  | .rwalk qids => qids.length ≤ 65535
  | _ => True

/-- Whether the 32-bit count of a body's payload can hold the payload's
length. -/
def PayloadFits : Body → Prop
  | .rreaddir entries => (entries.map DirEntry.wireSize).sum < UInt32.size
  | .rread data => data.length < UInt32.size
  | _ => True

/-- The body that is read back: the lists end where their counts do, and
attribute groups without a meaning are forgotten. -/
def counted : Body → Body
  | .twalk fid newfid names => .twalk fid newfid (names.take (Carries.vectorCount names))
  | .rwalk qids => .rwalk (qids.take (Carries.vectorCount qids))
  | b => b.known

/-- The number of bytes behind the counted elements of a body's lists. -/
def surplus : Body → Nat
  | .twalk _ _ names => ((names.drop (Carries.vectorCount names)).map Text.wireSize).sum
  | .rwalk qids => 13 * (qids.drop (Carries.vectorCount qids)).length
  | _ => 0

theorem type_counted (b : Body) : b.counted.type = b.type := by
  cases b <;> rfl

theorem payloadFits_of_size {b : Body} (h : b.size < UInt32.size) : b.PayloadFits := by
  cases b with
  | rreaddir entries =>
    simp only [size] at h
    exact Nat.lt_of_le_of_lt (Nat.le_add_left ..) h
  | rread data =>
    simp only [size] at h
    exact Nat.lt_of_le_of_lt (Nat.le_add_left ..) h
  | _ => exact trivial

theorem counted_of_countsHold {b : Body} (h : b.CountsHold) :
    b.counted = b.known ∧ b.surplus = 0 := by
  have key : ∀ {α : Type} {xs : List α}, xs.length ≤ 65535 → Carries.vectorCount xs = xs.length :=
    fun h => Nat.mod_eq_of_lt (Nat.lt_succ_of_le h)
  cases b with
  | twalk fid newfid names => simp [counted, surplus, known, key h]
  | rwalk qids => simp [counted, surplus, known, key h]
  | _ => exact ⟨rfl, rfl⟩

/-- A list that is longer than its count leaves at least one element. -/
theorem surplus_pos {b : Body} (h : ¬ b.CountsHold) : 0 < b.surplus := by
  have key : ∀ {α : Type} {xs : List α}, ¬ xs.length ≤ 65535 →
      0 < (xs.drop (Carries.vectorCount xs)).length := by
    intro α xs h
    rw [List.length_drop, Carries.vectorCount]
    omega
  cases b with
  | twalk fid newfid names =>
    obtain ⟨name, rest, he⟩ := List.exists_cons_of_length_pos (key h)
    rw [surplus, he, List.map_cons, List.sum_cons, Text.wireSize]
    omega
  | rwalk qids =>
    have := key h
    rw [surplus]
    omega
  | _ => exact absurd trivial h

end Body

/-- The number of bytes of a message without the size that a frame puts in front
of it. -/
def Message.size (m : Message) : Nat := 1 + 2 + m.body.size

/-- The message as a receiver reads it. -/
def Message.known (m : Message) : Message := { m with body := m.body.known }

namespace Carries

theorem texts {names : List String} :
    Carries (Codec.text.vector.encode names) Codec.text.vector.decode
      (∀ s ∈ names, s.utf8ByteSize ≤ Codec.maxTextSize) (2 + (names.map Text.wireSize).sum)
      ((names.drop (vectorCount names)).map Text.wireSize).sum (names.take (vectorCount names)) := by
  have h := vector (fun s (_ : s ∈ names) => text s)
  rwa [List.map_id'] at h

theorem qids {qids : List Qid} :
    Carries (Codec.qid.vector.encode qids) Codec.qid.vector.decode True (2 + 13 * qids.length)
      (13 * (qids.drop (vectorCount qids)).length) (qids.take (vectorCount qids)) := by
  have h := vector (fun q (_ : q ∈ qids) => qid q)
  simp only [List.map_id', List.map_const', List.sum_replicate_nat, Nat.mul_comm _ 13] at h
  exact h.congr (by simp) rfl

theorem body {b : Body} (hb : b.PayloadFits) :
    Carries (Codec.encodeBody b) (Codec.decodeBody b.type)
      (∀ s ∈ b.texts, s.utf8ByteSize ≤ Codec.maxTextSize) b.size b.surplus b.counted := by
  cases b with
  | rlerror ecode => exact ((u32 ecode).map _).congr (by simp [Body.texts]) rfl
  | tstatfs fid => exact ((u32 fid).map _).congr (by simp [Body.texts]) rfl
  | rstatfs s => exact ((fsStat s).map _).congr (by simp [Body.texts]) rfl
  | tlopen fid flags => exact (((u32 fid).pair (u32 flags)).map _).congr (by simp [Body.texts]) rfl
  | rlopen q iounit => exact (((qid q).pair (u32 iounit)).map _).congr (by simp [Body.texts]) rfl
  | treadlink fid => exact ((u32 fid).map _).congr (by simp [Body.texts]) rfl
  | rreadlink target => exact ((text target).map _).congr (by simp [Body.texts]) rfl
  | tgetattr fid m => exact (((u32 fid).pair (mask m)).map _).congr (by simp [Body.texts]) rfl
  | rgetattr a => exact ((attr a).map _).congr (by simp [Body.texts]) rfl
  | treaddir fid cookie count =>
    exact (((u32 fid).pair ((u64 cookie).pair (u32 count))).map _).congr (by simp [Body.texts]) rfl
  | rreaddir entries => exact ((listing hb).map _).congr (by simp [Body.texts]) rfl
  | tattach fid afid uname aname =>
    refine (((u32 fid).pair ((u32 afid).pair ((text uname).pair (text aname)))).map _).congr
      (by simp [Body.texts]) ?_
    simp only [Body.size, Text.wireSize]
    omega
  | rattach q => exact ((qid q).map _).congr (by simp [Body.texts]) rfl
  | tversion msize version =>
    exact (((u32 msize).pair (text version)).map _).congr (by simp [Body.texts]) rfl
  | rversion msize version =>
    exact (((u32 msize).pair (text version)).map _).congr (by simp [Body.texts]) rfl
  | twalk fid newfid names =>
    refine (((u32 fid).pair ((u32 newfid).pair texts)).map _).congr (by simp [Body.texts]) ?_
    simp only [Body.size]
    omega
  | rwalk qs => exact (qids.map _).congr (by simp [Body.texts]) rfl
  | tread fid offset count =>
    exact (((u32 fid).pair ((u64 offset).pair (u32 count))).map _).congr (by simp [Body.texts]) rfl
  | rread data => exact ((payload hb).map _).congr (by simp [Body.texts]) rfl
  | tclunk fid => exact ((u32 fid).map _).congr (by simp [Body.texts]) rfl
  | rclunk => exact (pure _).congr (by simp [Body.texts]) rfl

/-- A message is read back with its tag and the body that its counts leave. -/
theorem message {m : Message} (h : m.body.PayloadFits) :
    Carries (Codec.message.encode m) Codec.message.decode
      (∀ s ∈ m.body.texts, s.utf8ByteSize ≤ Codec.maxTextSize) m.size m.body.surplus
      { m with body := m.body.counted } := by
  have hb := body h
  constructor
  · intro hf
    obtain ⟨xs, extra, hwx, hnx, hrx, hex⟩ := (u8 m.body.type.id).writes trivial
    obtain ⟨ys, extra', hwy, hny, hry, hey⟩ := (u16 m.tag).writes trivial
    obtain ⟨zs, left, hwz, hnz, hrz, hez⟩ := hb.writes hf
    obtain rfl := List.eq_nil_of_length_eq_zero hex
    obtain rfl := List.eq_nil_of_length_eq_zero hey
    refine ⟨xs ++ (ys ++ zs), left, ?_, ?_, ?_, hez⟩
    · rw [List.length_append, List.length_append, ← Nat.add_assoc]
      exact hwx.bind (hwy.bind (hwz.bind_pure fun n => xs.length + ys.length + n))
    · rw [List.length_append, List.length_append, hnx, hny, hnz, Message.size, Nat.add_assoc]
    · refine hrx.bind (hry.bind ?_)
      rw [MessageType.ofId?_id]
      have hrm := hrz.map fun body => Message.mk m.tag body
      rw [map_eq_pure_bind] at hrm
      exact hrm
  · intro hf
    obtain ⟨xs, -, hwx, -⟩ := (u8 m.body.type.id).writes trivial
    obtain ⟨ys, -, hwy, -⟩ := (u16 m.tag).writes trivial
    exact hwx.bind_refuses (hwy.bind_refuses ((hb.refuses hf).bind _))

end Carries

end NineP
