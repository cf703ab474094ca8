import NineP.Message
import NineP.Wire.Values

/-!
# The codec of messages

A message is its type, its tag and the fields of its body. The type is judged
after the tag has been read.
-/

namespace NineP.Codec

/-- Write the fields of a body. -/
def encodeBody : Body → Writer Nat
  | .rlerror ecode => u32.encode ecode
  | .tstatfs fid => u32.encode fid
  | .rstatfs s => fsStat.encode s
  | .tlopen fid flags => (u32.pair u32).encode (fid, flags)
  | .rlopen q iounit => (qid.pair u32).encode (q, iounit)
  | .treadlink fid => u32.encode fid
  | .rreadlink target => text.encode target
  | .tgetattr fid m => (u32.pair mask).encode (fid, m)
  | .rgetattr a => attr.encode a
  | .treaddir fid cookie count => (u32.pair (u64.pair u32)).encode (fid, cookie, count)
  | .rreaddir entries => listing.encode entries
  | .tattach fid afid uname aname =>
    (u32.pair (u32.pair (text.pair text))).encode (fid, afid, uname, aname)
  | .rattach q => qid.encode q
  | .tversion msize version => (u32.pair text).encode (msize, version)
  | .rversion msize version => (u32.pair text).encode (msize, version)
  | .twalk fid newfid names => (u32.pair (u32.pair text.vector)).encode (fid, newfid, names)
  | .rwalk qids => qid.vector.encode qids
  | .tread fid offset count => (u32.pair (u64.pair u32)).encode (fid, offset, count)
  | .rread data => payload.encode data
  | .tclunk fid => u32.encode fid
  | .rclunk => pure 0

/-- Read the fields of a body. Nothing is sent as an error request. -/
def decodeBody : MessageType → Reader Body
  | .tlerror => throw .unknownMessage
  | .rlerror => .rlerror <$> u32.decode
  | .tstatfs => .tstatfs <$> u32.decode
  | .rstatfs => .rstatfs <$> fsStat.decode
  | .tlopen => (fun (fid, flags) => .tlopen fid flags) <$> (u32.pair u32).decode
  | .rlopen => (fun (q, iounit) => .rlopen q iounit) <$> (qid.pair u32).decode
  | .treadlink => .treadlink <$> u32.decode
  | .rreadlink => .rreadlink <$> text.decode
  | .tgetattr => (fun (fid, m) => .tgetattr fid m) <$> (u32.pair mask).decode
  | .rgetattr => .rgetattr <$> attr.decode
  | .treaddir =>
    (fun (fid, cookie, count) => .treaddir fid cookie count) <$> (u32.pair (u64.pair u32)).decode
  | .rreaddir => .rreaddir <$> listing.decode
  | .tattach =>
    (fun (fid, afid, uname, aname) => .tattach fid afid uname aname) <$>
      (u32.pair (u32.pair (text.pair text))).decode
  | .rattach => .rattach <$> qid.decode
  | .tversion => (fun (msize, version) => .tversion msize version) <$> (u32.pair text).decode
  | .rversion => (fun (msize, version) => .rversion msize version) <$> (u32.pair text).decode
  | .twalk =>
    (fun (fid, newfid, names) => .twalk fid newfid names) <$>
      (u32.pair (u32.pair text.vector)).decode
  | .rwalk => .rwalk <$> qid.vector.decode
  | .tread =>
    (fun (fid, offset, count) => .tread fid offset count) <$> (u32.pair (u64.pair u32)).decode
  | .rread => .rread <$> payload.decode
  | .tclunk => .tclunk <$> u32.decode
  | .rclunk => pure .rclunk

/-- A message without the size that a frame puts in front of it. -/
def message : Codec Message where
  encode m := do
    let a ← u8.encode m.body.type.id
    let b ← u16.encode m.tag
    let c ← encodeBody m.body
    pure (a + b + c)
  decode := do
    let id ← u8.decode
    let tag ← u16.decode
    match MessageType.ofId? id with
    | none => throw .unknownMessage
    | some type =>
      let body ← decodeBody type
      pure { tag, body }

end NineP.Codec
