import NineP.Info
import NineP.Resolve

/-!
# Open files

A handle owns a fid. What reading it means depends on the kind of object it was
opened on: the bytes of a regular file, one entry at a time of a directory, the
target of a symbolic link.

A regular file is opened for reading as soon as there is a handle. A directory
is opened on its first read, on a clone of its fid, so that the handle's own
fid can still be walked from. The target of a link is fetched once.

* `skipDots_eq`: entries for the directory itself and its parent are passed
  over, and the position follows them.
-/

namespace NineP

/-- An open file. -/
structure Handle where
  root : Location
  location : Location
  path : String
  kind : FileKind
  /-- The offset in a file; the cookie of the last entry of a directory that was
  given out or passed over. -/
  position : UInt64 := 0
  /-- The fid opened for reading, if there is one yet. -/
  ioFid : Option UInt32 := none
  /-- The server's advice on the size of reads; zero if there is none. -/
  iounit : UInt32 := 0
  /-- The attributes that were last fetched. -/
  attr : Option Attr := none
  /-- The target of a link, once it has been fetched. -/
  target : Option String := none
  /-- Entries that were fetched and not given out. -/
  pending : List DirEntry := []
  /-- Whether the server has no more entries. -/
  exhausted : Bool := false
  deriving DecidableEq, Repr

/-- An operation on a handle in a session. Its effects on the handle and on the
session stay when it fails. -/
abbrev HandleClient {m : Type → Type} [Machine m] (α : Type) :=
  ExceptT Error (StateT Handle (StateT Session m)) α

namespace HandleClient

variable {m : Type → Type} [Monad m] {_ : Machine m}

/-- An operation of the session as one on a handle. -/
def ofClient (x : Client α) : HandleClient α := ExceptT.mk (StateT.lift x.run)

/-- The result of an operation, be it a failure. -/
def attempt (x : HandleClient α) : HandleClient (Except Error α) := ExceptT.mk (Except.ok <$> x.run)

/-- An operation on the given handle, with the handle after it. -/
def runOn (x : HandleClient α) (h : Handle) : Client (Except Error α × Handle) :=
  ExceptT.mk (Except.ok <$> x.run.run h)

end HandleClient

namespace Handle

variable {m : Type → Type} [Monad m] [Machine m] [Relies m]

/-- A handle on an established fid, before anything is read. -/
def fresh (root location : Location) (path : String) : Handle :=
  { root, location, path, kind := location.qid.kind }

/-- The description of a handle. -/
def describe (h : Handle) : String :=
  s!"FileHandle \x7b path: {Text.quoted h.path}, fid: {h.location.fid}, kind: {h.kind.name}, "
    ++ s!"position: {h.position} \x7d"

/-- The flags to open a fid for reading only. -/
def readOnlyFlags : UInt32 := 0

/-- Open a fid for reading as the one that a handle is read from. A clone that
cannot be opened is given back. -/
def openOn (h : Handle) (fid : UInt32) : HandleClient UInt32 := do
  match ← HandleClient.ofClient (Client.attempt (Session.lopen fid readOnlyFlags)) with
  | .error e =>
    if fid ≠ h.location.fid then HandleClient.ofClient (Session.release fid)
    throw e
  | .ok (qid, iounit) =>
    let qid := if fid = h.location.fid then qid else h.location.qid
    set { h with location := { h.location with qid }, iounit, ioFid := some fid }
    pure fid

/-- Open the handle for reading, if it is not open yet; the fid to read from. -/
def ensureOpen : HandleClient UInt32 := do
  let h ← get
  match h.ioFid with
  | some fid => pure fid
  | none =>
    let fid ←
      if h.kind = .directory then
        let clone ← HandleClient.ofClient Client.freshFid
        let _ ← HandleClient.ofClient (Session.walk h.location.fid clone [])
        pure clone
      else pure h.location.fid
    openOn h fid

/-- Take over an established fid. If a regular file cannot be opened, then its
fid is given back. -/
def establish (root location : Location) (path : String) : Client Handle := do
  let h := fresh root location path
  if h.kind = .regular then
    match ← ensureOpen.runOn h with
    | (.ok _, h) => pure h
    | (.error e, h) =>
      Session.release h.location.fid
      throw e
  else pure h

/-- Open a path relative to a handle, or from the root if it is absolute. -/
def openPath (h : Handle) (path : String) : Client Handle := do
  if path.isEmpty then throw (.invalidParameter .emptyPath)
  let location ← Session.resolve h.root h.location path
  establish h.root location (Path.join h.path path)

/-! ## Regular files -/

/-- Read up to `wanted` more bytes behind those in `acc`, which stand in
reverse. Every response yields at least one byte, so `fuel` of them are enough
if `fuel` is at least `wanted`. If one fails, then the position goes back to
`start`. -/
def readFrom (fid : UInt32) (start : UInt64) : (fuel wanted : Nat) → (acc : Bytes) →
    HandleClient Bytes
  | 0, _, acc => pure acc.reverse
  | _ + 1, 0, acc => pure acc.reverse
  | fuel + 1, wanted + 1, acc => do
    let h ← get
    let s ← HandleClient.ofClient get
    relying (Session.readOverhead ≤ s.msize) do
    let count := UInt32.ofNat (min s.readCeiling.toNat (wanted + 1))
    match ← HandleClient.ofClient (Client.attempt (Session.read fid h.position count)) with
    | .error e =>
      set { h with position := start }
      throw e
    | .ok [] => pure acc.reverse
    | .ok data@(_ :: _) =>
      relying (data.length ≤ wanted + 1) do
      set { h with position := h.position + UInt64.ofNat data.length }
      readFrom fid start fuel (wanted + 1 - data.length) (data.reverseAux acc)

/-- Read up to `wanted` bytes from the position on, fewer only at the end of the
file. -/
def readData (wanted : Nat) : HandleClient Bytes := do
  let h ← get
  if h.kind ≠ .regular then throw (.invalidParameter (.notAFile h.path))
  let fid ← ensureOpen
  let h ← get
  readFrom fid h.position wanted wanted []

/-! ## Directories -/

/-- Pass over the entries in front that stand for the directory itself and its
parent. -/
def skipDots : (position : UInt64) → List DirEntry → UInt64 × List DirEntry
  | position, [] => (position, [])
  | position, e :: es => if e.isDot then skipDots e.cookie es else (position, e :: es)

theorem skipDots_eq (position : UInt64) (es : List DirEntry) :
    skipDots position es =
      (((es.takeWhile DirEntry.isDot).getLast?.map DirEntry.cookie).getD position,
        es.dropWhile DirEntry.isDot) := by
  induction es generalizing position with
  | nil => rfl
  | cons e es ih =>
    simp only [skipDots]
    split
    · rename_i h
      rw [ih, List.takeWhile_cons_of_pos h, List.dropWhile_cons_of_pos h]
      cases hl : (es.takeWhile DirEntry.isDot) with
      | nil => simp
      | cons x xs =>
        rw [List.getLast?_cons_cons]
        cases hx : (x :: xs).getLast? with
        | none => simp at hx
        | some y => rfl
    · rename_i h
      rw [List.takeWhile_cons_of_neg h, List.dropWhile_cons_of_neg h]
      rfl

/-- The attributes of an entry, through a fid of its own that is given back. -/
def entryInfo (h : Handle) (entry : DirEntry) : Client FileInfo := do
  let fid ← Client.freshFid
  let _ ← Session.walk h.location.fid fid [entry.name]
  let attr ← Client.attempt (Session.getattr fid .all)
  Session.release fid
  match attr with
  | .ok attr => pure (.ofAttr entry.name attr)
  | .error e => throw e

/-- The number of responses without an entry to give out after which a listing
is given up. -/
def patience : Nat := UInt64.size

/-- The next entry of a directory opened as `fid`, fetching entries up to `fuel`
times. -/
def nextEntry (fid : UInt32) : (fuel : Nat) → HandleClient (Option FileInfo)
  | 0 => throw .outOfResources
  | fuel + 1 => do
    let h ← get
    let (position, pending) := skipDots h.position h.pending
    let h := { h with position, pending }
    set h
    match pending with
    | entry :: rest =>
      let info ← HandleClient.ofClient (entryInfo h entry)
      set { h with position := entry.cookie, pending := rest }
      pure (some info)
    | [] =>
      if h.exhausted then pure none
      else
        let s ← HandleClient.ofClient get
        relying (Session.readdirOverhead ≤ s.msize) do
        match ← HandleClient.ofClient (Session.readdir fid h.position s.readdirCeiling) with
        | [] =>
          set { h with exhausted := true }
          pure none
        | entries@(_ :: _) =>
          set { h with pending := entries }
          nextEntry fid fuel

/-- The next entry of a directory other than the directory itself and its
parent, or none at the end. An entry whose attributes cannot be fetched is kept
for the next call. -/
def readEntry : HandleClient (Option FileInfo) := do
  let h ← get
  if h.kind ≠ .directory then throw (.invalidParameter (.notADirectory h.path))
  let fid ← ensureOpen
  nextEntry fid patience

/-! ## Symbolic links -/

/-- The target of a link. -/
def linkTarget : HandleClient String := do
  let h ← get
  if h.kind ≠ .symlink then throw (.invalidParameter (.notALink h.path))
  match h.target with
  | some target => pure target
  | none =>
    let target ← HandleClient.ofClient (Session.readlink h.location.fid)
    set { h with target := some target }
    pure target

/-- The bytes of a link's target, if there is room for them. -/
def readLink (room : Nat) : HandleClient Bytes := do
  let target ← linkTarget
  if room < target.utf8ByteSize then throw (.bufferTooSmall target.utf8ByteSize room)
  relying (target.utf8ByteSize ≤ room) do
  pure (Text.toBytes target)

/-! ## All kinds -/

/-- What a read yields. -/
inductive Outcome where
  /-- Bytes of a file; none at its end. -/
  | data (bytes : Bytes)
  /-- An entry of a directory, or none at its end. -/
  | entry (info : Option FileInfo)
  /-- The target of a link. -/
  | link (bytes : Bytes)
  deriving DecidableEq, Repr

/-- Read as the handle's kind has it, with room for so many bytes. -/
def read (room : Nat) : HandleClient Outcome := do
  let h ← get
  match h.kind with
  | .regular => .data <$> readData room
  | .directory => .entry <$> readEntry
  | .symlink => .link <$> readLink room

/-- Fetch the attributes anew. -/
def getInfo : HandleClient FileInfo := do
  let h ← get
  let attr ← HandleClient.ofClient (Session.getattr h.location.fid .all)
  set { h with attr := some attr }
  pure (.ofAttr (Path.fileName h.path) attr)

/-- The figures of the file system that the object lies in. -/
def fsInfo (h : Handle) : Client FsInfo := do
  let stat ← Session.statfs h.location.fid
  pure (.ofFsStat stat)

/-- Move to an offset of a file, or to the start of a directory. -/
def setPosition (position : UInt64) : HandleClient Unit := do
  let h ← get
  if h.kind = .directory then
    if position ≠ 0 then throw (.invalidParameter (.directoryPosition position))
    set { h with position, pending := [], exhausted := false }
  else set { h with position }

/-- Take bytes to be written and drop them: the volume is read-only. -/
def write (bytes : Nat) : HandleClient Nat := pure bytes

/-- Nothing is ever held back. -/
def flush : HandleClient Unit := pure ()

/-- Take the wish to delete and drop it: the handle stays open. -/
def delete : HandleClient Unit := pure ()

/-- Give back the fids of a handle: the clone of a directory and then its own.
The first failure is reported. -/
def close (h : Handle) : Client Unit := do
  let clone ← match h.ioFid with
    | some fid => if fid = h.location.fid then pure (.ok ()) else Client.attempt (Session.clunk fid)
    | none => pure (.ok ())
  let own ← Client.attempt (Session.clunk h.location.fid)
  match clone with
  | .error e => throw e
  | .ok _ => own

end Handle

end NineP
