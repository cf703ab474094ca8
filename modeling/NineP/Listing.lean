import NineP.Info
import NineP.Qid
import NineP.Size

/-!
# Reports of the command line

The texts that the commands print about files and volumes.
-/

namespace NineP.Listing

/-- A line of a directory listing. The long form has the kind, the size and the
time of modification in front of the name. -/
def entry (info : FileInfo) (long : Bool) : String :=
  let name := if info.isDirectory then info.name ++ "/" else info.name
  if long then
    (if info.isDirectory then "d " else "- ") ++ Text.padLeft 8 ' ' (Size.text info.size.toNat)
      ++ " " ++ info.modified.shortText ++ " " ++ name ++ "\n"
  else name ++ "\n"

/-- The attributes of a file. -/
def file (info : FileInfo) (qid : Qid) : String :=
  s!"  File: {info.name}\n  Size: {info.size}\tAllocated: {info.physicalSize}\n"
    ++ s!"   Qid: type {Text.hex 2 qid.bits.toNat} version {qid.version} "
    ++ s!"path {Text.hex 1 qid.path.toNat}\n"
    ++ s!"Access: {info.accessed.text}\nModify: {info.modified.text}\nCreate: {info.created.text}\n"

/-- The usage of a volume. -/
def volume (info : FsInfo) : String :=
  s!"Label: {info.label}\nBlock size: {info.blockSize}\nSize: {Size.text info.volumeSize.toNat}\n"
    ++ s!"Free: {Size.text info.freeSpace.toNat}\nRead-only: {info.readOnly}\n"

end NineP.Listing
