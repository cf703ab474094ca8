import NineP.Attributes
import NineP.Bytes
import NineP.DirEntry
import NineP.MessageType

/-!
# Messages

A message is a tag and a body; the body says which of the protocol's requests
or responses it is and carries that message's fields. Messages are ordered by
tag, then by body, the bodies in the order in which they are listed here.
-/

namespace NineP

/-- The name of the protocol. -/
def protocolVersion : String := "9P2000.L"

/-- The tag of the version handshake. -/
def noTag : UInt16 := 0xffff

/-- The fid that stands for no fid. -/
def noFid : UInt32 := 0xffffffff

/-- The tag of every request after the handshake. One request is under way at a
time, so one tag is enough. -/
def sessionTag : UInt16 := 1

/-- The bytes of the size, the type and the tag of a message. -/
def headerSize : Nat := 7

/-- The body of a message. -/
inductive Body where
  | rlerror (ecode : UInt32)
  | tstatfs (fid : UInt32)
  | rstatfs (stat : FsStat)
  | tlopen (fid flags : UInt32)
  | rlopen (qid : Qid) (iounit : UInt32)
  | treadlink (fid : UInt32)
  | rreadlink (target : String)
  | tgetattr (fid : UInt32) (mask : AttrMask)
  | rgetattr (attr : Attr)
  | treaddir (fid : UInt32) (cookie : UInt64) (count : UInt32)
  | rreaddir (entries : List DirEntry)
  | tattach (fid afid : UInt32) (uname aname : String)
  | rattach (qid : Qid)
  | tversion (msize : UInt32) (version : String)
  | rversion (msize : UInt32) (version : String)
  | twalk (fid newfid : UInt32) (names : List String)
  | rwalk (qids : List Qid)
  | tread (fid : UInt32) (offset : UInt64) (count : UInt32)
  | rread (data : Bytes)
  | tclunk (fid : UInt32)
  | rclunk
  deriving DecidableEq, Ord, Repr, Inhabited

/-- The type of the message that carries a body. -/
def Body.type : Body → MessageType
  | .rlerror .. => .rlerror
  | .tstatfs .. => .tstatfs
  | .rstatfs .. => .rstatfs
  | .tlopen .. => .tlopen
  | .rlopen .. => .rlopen
  | .treadlink .. => .treadlink
  | .rreadlink .. => .rreadlink
  | .tgetattr .. => .tgetattr
  | .rgetattr .. => .rgetattr
  | .treaddir .. => .treaddir
  | .rreaddir .. => .rreaddir
  | .tattach .. => .tattach
  | .rattach .. => .rattach
  | .tversion .. => .tversion
  | .rversion .. => .rversion
  | .twalk .. => .twalk
  | .rwalk .. => .rwalk
  | .tread .. => .tread
  | .rread .. => .rread
  | .tclunk .. => .tclunk
  | .rclunk => .rclunk

/-- A tagged message. A response carries the tag of its request. -/
structure Message where
  tag : UInt16 := 0
  body : Body
  deriving DecidableEq, Ord, Repr, Inhabited

namespace Body

/-- The body as a receiver reads it: attribute groups without a meaning are
forgotten. -/
def known : Body → Body
  | .tgetattr fid mask => .tgetattr fid mask.known
  | .rgetattr attr => .rgetattr { attr with valid := attr.valid.known }
  | b => b

@[simp] theorem type_known (b : Body) : b.known.type = b.type := by
  cases b <;> rfl

end Body

end NineP
