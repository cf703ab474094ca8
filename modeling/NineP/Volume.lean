import NineP.Handle

/-!
# Volumes

One export of one server, from mounting to unmounting. The handles opened from
a volume share its session, and each owns a fid of its own.
-/

namespace NineP

/-- A mounted export. -/
structure Volume where
  root : Location
  config : Config
  deriving DecidableEq, Repr

namespace Volume

variable {m : Type → Type} [Monad m] [Machine m] [Relies m]

/-- Agree with the server on how to talk, and attach to the export. -/
def attach (config : Config) : Client Location := do
  let _ ← Session.negotiate config.msize
  let (fid, qid) ← Session.attach config.uname config.aname
  pure { fid, qid }

/-- Connect to a server and attach to its export. If that fails once there is a
connection, then the connection is closed, and the first failure is
reported. -/
def mount (config : Config) : Exchange (Volume × Session) := do
  config.validate
  Exchange.perform (.configure config.endpoints)
  Exchange.perform .connect
  let (attached, session) ← (attach config).runIn { timeout := config.timeout }
  match attached with
  | .ok root => pure ({ root, config }, session)
  | .error e =>
    let _ ← Exchange.attempt (Exchange.perform .close)
    throw e

/-- A handle on the root, with a clone of its fid. -/
def openRoot (v : Volume) : Client Handle := do
  let location ← Session.resolve v.root v.root ""
  Handle.establish v.root location "/"

/-- Open a path from the root. -/
def openPath (v : Volume) (path : String) : Client Handle := do
  let location ← Session.resolve v.root v.root path
  Handle.establish v.root location (Path.absolute path)

/-- The figures of the file system. -/
def fsInfo (v : Volume) : Client FsInfo := do
  let stat ← Session.statfs v.root.fid
  pure (.ofFsStat stat)

/-- Give the root's fid back and close the connection. A failure to close is
reported before one to give the fid back. -/
def unmount (v : Volume) : Client Unit := do
  let clunked ← Client.attempt (Session.clunk v.root.fid)
  Session.shutdown
  clunked

end Volume

end NineP
