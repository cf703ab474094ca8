import NineP.Qid

/-!
# Attributes of files and of file systems

What a server tells about one object (`Attr`) and about the file system it
exports (`FsStat`). The attribute groups a client asks for, and a server says
it has filled in, are the bits of an `AttrMask`.
-/

namespace NineP

/-- A point in time: seconds and nanoseconds since the start of 1970. -/
structure Time where
  sec : UInt64 := 0
  nsec : UInt64 := 0
  deriving DecidableEq, Ord, Repr, Inhabited

/-- A set of attribute groups. -/
structure AttrMask where
  bits : UInt64 := 0
  deriving DecidableEq, Ord, Repr, Inhabited

namespace AttrMask

/-- All groups that have a meaning: the basic ones, the time of birth, the
generation and the data version. -/
def all : AttrMask := ⟨0x3fff⟩

/-- The groups that have a meaning. -/
def known (m : AttrMask) : AttrMask := ⟨m.bits &&& all.bits⟩

end AttrMask

/-- The metadata of an object. -/
structure Stat where
  mode : UInt32 := 0
  uid : UInt32 := 0
  gid : UInt32 := 0
  nlink : UInt64 := 0
  rdev : UInt64 := 0
  size : UInt64 := 0
  blksize : UInt64 := 0
  /-- The allocation, in units of 512 bytes. -/
  blocks : UInt64 := 0
  atime : Time := {}
  mtime : Time := {}
  ctime : Time := {}
  deriving DecidableEq, Ord, Repr, Inhabited

/-- All attributes of an object. Fields of groups outside `valid` hold whatever
the server sent. -/
structure Attr where
  valid : AttrMask := {}
  qid : Qid := {}
  stat : Stat := {}
  /-- The time of birth. -/
  btime : Time := {}
  generation : UInt64 := 0
  dataVersion : UInt64 := 0
  deriving DecidableEq, Ord, Repr, Inhabited

/-- The figures of a file system. -/
structure FsStat where
  typ : UInt32 := 0
  /-- The size of the blocks that the next three fields count. -/
  bsize : UInt32 := 0
  blocks : UInt64 := 0
  bfree : UInt64 := 0
  /-- The free blocks that an ordinary user may take. -/
  bavail : UInt64 := 0
  files : UInt64 := 0
  ffree : UInt64 := 0
  fsid : UInt64 := 0
  namelen : UInt32 := 0
  deriving DecidableEq, Ord, Repr, Inhabited

end NineP
