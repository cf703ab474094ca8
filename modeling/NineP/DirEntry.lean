import NineP.Qid

/-!
# Directory entries

One record of a directory listing. The cookie of an entry is where a listing
goes on after it; cookies carry no other meaning.

* `listingSize_cons`: the size of a listing is the sum of the sizes of its
  entries, as a 32-bit word.
-/

namespace NineP

/-- An entry of a directory. -/
structure DirEntry where
  qid : Qid := {}
  /-- Where the listing goes on after this entry. -/
  cookie : UInt64 := 0
  /-- The kind of the entry as a directory stream reports it. -/
  typ : UInt8 := 0
  name : String := ""
  deriving DecidableEq, Ord, Repr, Inhabited

namespace DirEntry

/-- The encoded length: a qid, a cookie, a kind and a counted name. -/
def size (e : DirEntry) : UInt32 := 13 + 8 + 1 + 2 + UInt32.ofNat e.name.utf8ByteSize

/-- Whether the entry is the directory itself or its parent. -/
def isDot (e : DirEntry) : Bool := e.name == "." || e.name == ".."

/-- The encoded length of all entries of a listing. -/
def listingSize (entries : List DirEntry) : UInt32 :=
  entries.foldl (fun total e => total + e.size) 0

theorem foldl_size (entries : List DirEntry) (n : UInt32) :
    entries.foldl (fun total e => total + e.size) n = n + listingSize entries := by
  induction entries generalizing n with
  | nil => simp [listingSize]
  | cons e es ih =>
    have h := ih (0 + e.size)
    rw [listingSize, List.foldl_cons, List.foldl_cons, ih, h, UInt32.zero_add, UInt32.add_assoc]

theorem listingSize_cons (e : DirEntry) (es : List DirEntry) :
    listingSize (e :: es) = e.size + listingSize es := by
  rw [listingSize, List.foldl_cons, foldl_size, UInt32.zero_add]

end DirEntry

end NineP
