/-!
# Identities of files

A server names each of its objects by a qid: what kind of object it is, a
version that changes when the object does, and a path that is the object's
own. Two qids are of the same object exactly when their paths agree.

* `sameObject_iff`: identity is the path alone.
-/

namespace NineP

/-- A server's identity of an object. -/
structure Qid where
  /-- The set of kind bits. -/
  bits : UInt8 := 0
  /-- Changed by the server when the object is modified. -/
  version : UInt32 := 0
  /-- Unique within the export. -/
  path : UInt64 := 0
  deriving DecidableEq, Ord, Repr, Inhabited

/-- What a client can do with an object. -/
inductive FileKind where
  | regular
  | directory
  | symlink
  deriving DecidableEq, Repr

namespace FileKind

/-- The name of a kind of object in a description of a handle. -/
def name : FileKind → String
  | regular => "Regular"
  | directory => "Directory"
  | symlink => "Symlink"

end FileKind

namespace Qid

/-- The kind bit of a directory. -/
def directoryBit : UInt8 := 0x80

/-- The kind bit of a symbolic link. -/
def symlinkBit : UInt8 := 0x02

def isDirectory (q : Qid) : Bool := q.bits &&& directoryBit == directoryBit

def isSymlink (q : Qid) : Bool := q.bits &&& symlinkBit == symlinkBit

/-- Whether both qids are of one object. -/
def sameObject (a b : Qid) : Bool := a.path == b.path

/-- Whether `b` is the object of `a` at another version. -/
def isStale (a b : Qid) : Bool := a.sameObject b && a.version != b.version

/-- The kind of an object: a directory before a link before anything else. -/
def kind (q : Qid) : FileKind :=
  if q.isDirectory then .directory else if q.isSymlink then .symlink else .regular

theorem sameObject_iff {a b : Qid} : a.sameObject b = true ↔ a.path = b.path := by
  simp [sameObject]

end Qid

end NineP
