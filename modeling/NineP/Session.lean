import NineP.Config
import NineP.Exchange
import NineP.FidSource
import NineP.Wire.BoundedText

/-!
# Sessions

A session is the state of a client's conversation with one server: the message
size and the protocol that were agreed on, the time limit and the fids. Every
operation is one exchange: encode the request, exchange it for a response,
check the response's tag and type, decode it.
-/

namespace NineP

/-- The state of a conversation with a server. -/
structure Session where
  /-- The agreed message size. -/
  msize : UInt32 := defaultMsize
  /-- The agreed protocol; empty before the handshake. -/
  version : String := ""
  /-- The time limit of an exchange in milliseconds. -/
  timeout : Option UInt64 := none
  fids : FidSource := {}
  deriving DecidableEq, Repr

/-- An operation of a client in a session. Its effect on the session stays when
it fails. -/
abbrev Client {m : Type → Type} [Machine m] (α : Type) := ExceptT Error (StateT Session m) α

namespace Client

section

variable {m : Type → Type} [Monad m] {_ : Machine m}

/-- Run an operation in a session. -/
def runIn (x : Client α) (s : Session) : m (Except Error α × Session) := x.run s

/-- An exchange as an operation. -/
def ofExchange (x : Exchange α) : Client α := ExceptT.mk (StateT.lift x.run)

/-- The result of an operation, be it a failure. -/
def attempt (x : Client α) : Client (Except Error α) := ExceptT.mk (Except.ok <$> x.run)

end

/-- Take a fresh fid. -/
def freshFid {m : Type → Type} [Monad m] [Machine m] : Client UInt32 := do
  let s ← get
  let (fid, fids) := s.fids.take
  set { s with fids }
  pure fid

end Client

namespace Session

variable {m : Type → Type} [Monad m] [Machine m] [Relies m]

/-- The bytes of a message that the framing of a read takes. -/
def readOverhead : UInt32 := 24

/-- The bytes of a message that the framing of a listing takes. -/
def readdirOverhead : UInt32 := 24

/-- The largest payload of a read. -/
def readCeiling (s : Session) : UInt32 := s.msize - readOverhead

/-- The largest payload of a listing. -/
def readdirCeiling (s : Session) : UInt32 := s.msize - readdirOverhead

/-- The longest link target that is accepted. -/
def maxTarget : Nat := 4096

/-- The type of a frame. -/
def frameType (frame : Bytes) : UInt8 := frame.getD 4 0

/-- The tag of a frame. -/
def frameTag (frame : Bytes) : UInt16 :=
  UInt16.ofNat (LittleEndian.decode ((frame.drop 5).take 2))

/-- The response of another type than the expected one. -/
def unexpected (expected : MessageType) (body : Body) : Error :=
  .unexpectedResponse expected body.type.id

/-- Judge a response by its tag and its type. An error report is an error unless
it reports success, and nothing but the expected type is a response. -/
def judge {n : Type → Type} [Monad n] [MonadExcept Error n] [Relies n] (tag : UInt16)
    (expected : MessageType) (frame : Bytes) : n Unit := do
  relying (7 ≤ frame.length) do
  if frameTag frame ≠ tag then throw (.tagMismatch tag (frameTag frame))
  if frameType frame = expected.id then return
  if frameType frame = MessageType.rlerror.id then report frame
  throw (.unexpectedResponse expected (frameType frame))

/-- What a response comes to. -/
def checkResponse (tag : UInt16) (expected : MessageType) (frame : Bytes) : Except Error Unit :=
  judge tag expected frame

/-- The frame of a request and the type of its response, unless the request
cannot be written or does not fit. -/
def requestFrame (msize : UInt32) (m : Message) (capacity : UInt32) :
    Except Error (Bytes × MessageType) := do
  let expected ← match m.body.type.response? with
    | some expected => .ok expected
    | none => .error (.invalidParameter (.notARequest m.body.type))
  let frame ← match Frame.encode m with
    | .ok frame => .ok frame
    | .error fault => .error (.invalidParameter (.unwritable fault))
  if frame.length > (max msize capacity).toNat then
    throw (.invalidParameter (.requestTooLong m.body.type frame.length msize))
  pure (frame, expected)

/-- Exchange a request for its response frame, of the expected tag and type. -/
def transaction (tag : UInt16) (body : Body) (capacity : UInt32) : Client Bytes := do
  let s ← get
  let (request, expected) ← requestFrame s.msize { tag, body } capacity
  let response ← Client.ofExchange (exchange request capacity.toNat s.timeout)
  judge tag expected response
  pure response

/-- Exchange a request for the body of its response. -/
def request (tag : UInt16) (body : Body) (capacity : UInt32) : Client Body := do
  let frame ← transaction tag body capacity
  match Frame.decode frame with
  | .ok m => pure m.body
  | .error fault => throw (.decode fault)

/-- Exchange a request of the session for the body of its response. -/
def call (body : Body) : Client Body := do
  let s ← get
  request sessionTag body s.msize

/-! ## Operations -/

/-- Agree on the protocol and the message size: no more than was proposed. -/
def negotiate (proposal : UInt32) : Client UInt32 := do
  if proposal < minMsize then throw (.invalidParameter (.msize proposal))
  match ← request noTag (.tversion proposal protocolVersion) proposal with
  | .rversion msize version =>
    if version ≠ protocolVersion then throw (.unsupportedVersion version)
    if msize < minMsize then throw (.decode (.unusableMsize msize))
    let agreed := min msize proposal
    modify fun s => { s with msize := agreed, version }
    pure agreed
  | other => throw (unexpected .rversion other)

/-- Attach a fresh fid to the root of an export. The fid is used up even if that
fails. -/
def attach (uname aname : String) : Client (UInt32 × Qid) := do
  let fid ← Client.freshFid
  match ← call (.tattach fid noFid uname aname) with
  | .rattach qid => pure (fid, qid)
  | other => throw (unexpected .rattach other)

/-- Walk from `fid` through `names` to `newfid`. If the server comes to a stop
on the way, then `newfid` is not established and the object is not found. -/
def walk (fid newfid : UInt32) (names : List String) : Client (List Qid) := do
  match ← call (.twalk fid newfid names) with
  | .rwalk qids =>
    if qids.length > names.length then
      throw (.decode (.surplusQids qids.length names.length))
    if qids.length < names.length then throw (.server .notFound)
    pure qids
  | other => throw (unexpected .rwalk other)

/-- Open a fid: its identity and the server's advice on the size of reads. -/
def lopen (fid flags : UInt32) : Client (Qid × UInt32) := do
  match ← call (.tlopen fid flags) with
  | .rlopen qid iounit => pure (qid, iounit)
  | other => throw (unexpected .rlopen other)

/-- The attributes of a fid. Every field is taken as sent. -/
def getattr (fid : UInt32) (mask : AttrMask) : Client Attr := do
  match ← call (.tgetattr fid mask) with
  | .rgetattr attr => pure attr
  | other => throw (unexpected .rgetattr other)

/-- The figures of the file system of a fid. -/
def statfs (fid : UInt32) : Client FsStat := do
  match ← call (.tstatfs fid) with
  | .rstatfs stat => pure stat
  | other => throw (unexpected .rstatfs other)

/-- Read at most `count` bytes, and no more than fit a message. No bytes mean
the end of the file. -/
def read (fid : UInt32) (offset : UInt64) (count : UInt32) : Client Bytes := do
  let s ← get
  relying (readOverhead ≤ s.msize) do
  let count := min count s.readCeiling
  match ← call (.tread fid offset count) with
  | .rread data =>
    if data.length > count.toNat then throw (.decode (.surplusBytes data.length count.toNat))
    pure data
  | other => throw (unexpected .rread other)

/-- Read the directory entries behind a cookie. No entries mean the end of the
directory. -/
def readdir (fid : UInt32) (cookie : UInt64) (count : UInt32) : Client (List DirEntry) := do
  let s ← get
  relying (readdirOverhead ≤ s.msize) do
  let count := min count s.readdirCeiling
  match ← call (.treaddir fid cookie count) with
  | .rreaddir entries => pure entries
  | other => throw (unexpected .rreaddir other)

/-- The target of a symbolic link. Bytes behind it in the response are not looked
at. -/
def readlink (fid : UInt32) : Client String := do
  let s ← get
  let frame ← transaction sessionTag (.treadlink fid) s.msize
  relying (headerSize ≤ frame.length) do
  (boundedText maxTarget (frame.drop headerSize)).1

/-- Give a fid back to the server. -/
def clunk (fid : UInt32) : Client Unit := do
  match ← call (.tclunk fid) with
  | .rclunk => pure ()
  | other => throw (unexpected .rclunk other)

/-- Shut the stream down. -/
def shutdown : Client Unit := Client.ofExchange (Exchange.perform .close)

end Session

end NineP
