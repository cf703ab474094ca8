import NineP.Calendar

/-!
# What a host is shown of files and volumes

* `toNat_saturatingMul`: a size that exceeds a 64-bit word is shown as the
  largest word.
-/

namespace NineP

/-- A file as a host sees it. -/
structure FileInfo where
  /-- The last name of the path; empty for the root of the volume. -/
  name : String
  size : UInt64
  /-- The bytes that the file takes up on the server. -/
  physicalSize : UInt64
  /-- The time of the last change of status: servers seldom tell the time of
  birth. -/
  created : Instant
  accessed : Instant
  modified : Instant
  isDirectory : Bool
  deriving DecidableEq, Repr

/-- The product of two words, or the largest word. -/
def saturatingMul (a b : UInt64) : UInt64 :=
  UInt64.ofNat (min (a.toNat * b.toNat) (UInt64.size - 1))

namespace FileInfo

/-- The unit of a server's allocation count. -/
def allocationUnit : UInt64 := 512

/-- A file of the given name and attributes. -/
def ofAttr (name : String) (attr : Attr) : FileInfo where
  name := name
  size := attr.stat.size
  physicalSize := saturatingMul attr.stat.blocks allocationUnit
  created := attr.stat.ctime.instant
  accessed := attr.stat.atime.instant
  modified := attr.stat.mtime.instant
  isDirectory := attr.qid.isDirectory

/-- The attribute bits of a file: everything is read-only. -/
def attributeBits (i : FileInfo) : UInt64 := if i.isDirectory then 0x11 else 0x01

end FileInfo

/-- A volume as a host sees it. -/
structure FsInfo where
  volumeSize : UInt64
  freeSpace : UInt64
  blockSize : UInt32
  readOnly : Bool
  label : String
  deriving DecidableEq, Repr

namespace FsInfo

/-- The label of every volume. -/
def volumeLabel : String := "9P"

def ofFsStat (s : FsStat) : FsInfo where
  volumeSize := saturatingMul s.bsize.toUInt64 s.blocks
  freeSpace := saturatingMul s.bsize.toUInt64 s.bfree
  blockSize := s.bsize
  readOnly := true
  label := volumeLabel

end FsInfo

theorem toNat_saturatingMul (a b : UInt64) :
    (saturatingMul a b).toNat = min (a.toNat * b.toNat) (UInt64.size - 1) := by
  simp only [saturatingMul, UInt64.toNat_ofNat', UInt64.size]
  omega

end NineP
