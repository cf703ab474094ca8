import NineP.Attributes
import NineP.DirEntry
import NineP.Wire.Codec

/-!
# Codecs of the data in messages

The fields of a structure are written in the order of its declaration. Reading
a set of attribute groups forgets the groups that have no meaning; writing
keeps them.
-/

namespace NineP.Codec

def qid : Codec Qid :=
  (u8.pair (u32.pair u64)).imap
    (fun q => (q.bits, q.version, q.path))
    (fun (bits, version, path) => { bits, version, path })

def time : Codec Time :=
  (u64.pair u64).imap (fun t => (t.sec, t.nsec)) (fun (sec, nsec) => { sec, nsec })

/-- All groups are written; those without a meaning are not read. -/
def mask : Codec AttrMask :=
  u64.imap AttrMask.bits (fun bits => AttrMask.known ⟨bits⟩)

def stat : Codec Stat :=
  (u32.pair (u32.pair (u32.pair (u64.pair (u64.pair (u64.pair (u64.pair (u64.pair
    (time.pair (time.pair time)))))))))).imap
    (fun s => (s.mode, s.uid, s.gid, s.nlink, s.rdev, s.size, s.blksize, s.blocks,
      s.atime, s.mtime, s.ctime))
    (fun (mode, uid, gid, nlink, rdev, size, blksize, blocks, atime, mtime, ctime) =>
      { mode, uid, gid, nlink, rdev, size, blksize, blocks, atime, mtime, ctime })

def attr : Codec Attr :=
  (mask.pair (qid.pair (stat.pair (time.pair (u64.pair u64))))).imap
    (fun a => (a.valid, a.qid, a.stat, a.btime, a.generation, a.dataVersion))
    (fun (valid, qid, stat, btime, generation, dataVersion) =>
      { valid, qid, stat, btime, generation, dataVersion })

def fsStat : Codec FsStat :=
  (u32.pair (u32.pair (u64.pair (u64.pair (u64.pair (u64.pair (u64.pair (u64.pair
    u32)))))))).imap
    (fun s => (s.typ, s.bsize, s.blocks, s.bfree, s.bavail, s.files, s.ffree, s.fsid, s.namelen))
    (fun (typ, bsize, blocks, bfree, bavail, files, ffree, fsid, namelen) =>
      { typ, bsize, blocks, bfree, bavail, files, ffree, fsid, namelen })

def dirEntry : Codec DirEntry :=
  (qid.pair (u64.pair (u8.pair text))).imap
    (fun e => (e.qid, e.cookie, e.typ, e.name))
    (fun (qid, cookie, typ, name) => { qid, cookie, typ, name })

/-- A listing: the number of its bytes, a 32-bit word, and then its entries.
The entries have to end where the counted bytes end. -/
def listing : Codec (List DirEntry) where
  encode entries := do
    let n ← u32.encode (DirEntry.listingSize entries)
    Writer.total dirEntry.encode n entries
  decode := do
    let bs ← payload.decode
    dirEntry.decode.exhaust bs

end NineP.Codec
