import NineP.Proofs.Wire.Carries
import NineP.Wire.Values

/-!
# The data in messages, on the wire

The law of the codec of each kind of data: how many bytes it takes and what is
read back. Everything but a name fits, and everything but a set of attribute
groups is read back as it was.

* `listing`: a listing whose size is a 32-bit word is read back, entry by entry.
-/

namespace NineP

/-- The bytes of a text and of its count. -/
def Text.wireSize (s : String) : Nat := 2 + s.utf8ByteSize

/-- The bytes of a directory entry. -/
def DirEntry.wireSize (e : DirEntry) : Nat := 13 + 8 + 1 + Text.wireSize e.name

/-- The size of a listing is the number of its bytes as a 32-bit word. -/
theorem DirEntry.listingSize_eq (entries : List DirEntry) :
    listingSize entries = UInt32.ofNat (entries.map wireSize).sum := by
  induction entries with
  | nil => rfl
  | cons e es ih =>
    have hsize : e.size = UInt32.ofNat e.wireSize := by
      rw [wireSize, Text.wireSize, ← Nat.add_assoc, UInt32.ofNat_add, size]
      rfl
    rw [listingSize_cons, ih, hsize, ← UInt32.ofNat_add, List.map_cons, List.sum_cons]

theorem DirEntry.toNat_listingSize {entries : List DirEntry}
    (h : (entries.map wireSize).sum < UInt32.size) :
    (listingSize entries).toNat = (entries.map wireSize).sum := by
  rw [listingSize_eq, UInt32.toNat_ofNat_of_lt' h]

/-- The entries of a listing are read from the bytes that its count announces. -/
theorem Codec.listing_of_payload {bs data rest : Bytes}
    (h : Codec.payload.decode bs = .ok (data, rest)) :
    Codec.listing.decode bs =
      (Codec.dirEntry.decode.exhaust data).map fun entries => (entries, rest) := by
  show (Codec.payload.decode >>= fun data => Codec.dirEntry.decode.exhaust data) bs = _
  rw [Reader.bind_apply, h]
  show (StateT.lift (Codec.dirEntry.decode.exhaust data)) rest = _
  cases Codec.dirEntry.decode.exhaust data with
  | error e => rfl
  | ok entries => rfl

namespace Carries

theorem qid (q : Qid) : Carries (Codec.qid.encode q) Codec.qid.decode True 13 0 q := by
  have h := (u8 q.bits).pair ((u32 q.version).pair (u64 q.path))
  exact congr (imap h rfl) (by simp) rfl

theorem time (t : Time) : Carries (Codec.time.encode t) Codec.time.decode True 16 0 t := by
  have h := (u64 t.sec).pair (u64 t.nsec)
  exact congr (imap h rfl) (by simp) rfl

theorem mask (m : AttrMask) : Carries (Codec.mask.encode m) Codec.mask.decode True 8 0 m.known :=
  imap (u64 m.bits) rfl

theorem stat (s : Stat) : Carries (Codec.stat.encode s) Codec.stat.decode True 100 0 s := by
  have h := (u32 s.mode).pair ((u32 s.uid).pair ((u32 s.gid).pair ((u64 s.nlink).pair
    ((u64 s.rdev).pair ((u64 s.size).pair ((u64 s.blksize).pair ((u64 s.blocks).pair
      ((time s.atime).pair ((time s.mtime).pair (time s.ctime))))))))))
  exact congr (imap h rfl) (by simp) rfl

theorem attr (a : Attr) :
    Carries (Codec.attr.encode a) Codec.attr.decode True 153 0 { a with valid := a.valid.known } := by
  have h := (mask a.valid).pair ((qid a.qid).pair ((stat a.stat).pair ((time a.btime).pair
    ((u64 a.generation).pair (u64 a.dataVersion)))))
  exact congr (imap h rfl) (by simp) rfl

theorem fsStat (s : FsStat) : Carries (Codec.fsStat.encode s) Codec.fsStat.decode True 60 0 s := by
  have h := (u32 s.typ).pair ((u32 s.bsize).pair ((u64 s.blocks).pair ((u64 s.bfree).pair
    ((u64 s.bavail).pair ((u64 s.files).pair ((u64 s.ffree).pair ((u64 s.fsid).pair
      (u32 s.namelen))))))))
  exact congr (imap h rfl) (by simp) rfl

theorem dirEntry (e : DirEntry) :
    Carries (Codec.dirEntry.encode e) Codec.dirEntry.decode
      (e.name.utf8ByteSize ≤ Codec.maxTextSize) e.wireSize 0 e := by
  have h := (qid e.qid).pair ((u64 e.cookie).pair ((u8 e.typ).pair (text e.name)))
  refine congr (imap h rfl) (by simp) ?_
  simp only [DirEntry.wireSize, Text.wireSize]
  omega

theorem listing {entries : List DirEntry} (h : (entries.map DirEntry.wireSize).sum < UInt32.size) :
    Carries (Codec.listing.encode entries) Codec.listing.decode
      (∀ e ∈ entries, e.name.utf8ByteSize ≤ Codec.maxTextSize)
      (4 + (entries.map DirEntry.wireSize).sum) 0 entries where
  writes hf := by
    obtain ⟨field, extra, hw, hn, hr, he⟩ := (u32 (DirEntry.listingSize entries)).writes trivial
    obtain rfl := List.eq_nil_of_length_eq_zero he
    obtain ⟨bs, hb, hwb, -, hxb⟩ := total (fun e (_ : e ∈ entries) => dirEntry e) hf
    have hpos : ∀ e ∈ entries, 0 < e.wireSize := fun e _ => by
      simp only [DirEntry.wireSize]
      omega
    refine ⟨field ++ bs, [], ?_, by rw [List.length_append, hn, hb], fun rest => ?_, rfl⟩
    · rw [List.length_append]
      exact hw.bind (hwb _)
    · have hcount : (DirEntry.listingSize entries).toNat = bs.length := by
        rw [DirEntry.toNat_listingSize h, hb]
      have hall : Reader.exhaust Codec.dirEntry.decode bs = .ok entries := by
        rw [Reader.exhaust, hxb hpos bs.length [] (Nat.le_refl _)]
        simp
      rw [Codec.listing_of_payload (hr.payload hcount rest), hall]
      rfl
  refuses hf := by
    obtain ⟨field, extra, hw, -⟩ := (u32 (DirEntry.listingSize entries)).writes trivial
    exact hw.bind_refuses (total_refuses (fun e _ => dirEntry e) hf _)

end Carries

end NineP
