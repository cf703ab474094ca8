import NineP.Path
import NineP.Session

/-!
# Resolving paths

A path is walked one name at a time. Each step takes a fresh fid; the fid of
the step before is given back once the step is over, whether it succeeded or
not, so that only the last fid outlives the walk. A walk of no names clones the
fid it starts from.
-/

namespace NineP

/-- A fid and the identity of the object it stands for. -/
structure Location where
  fid : UInt32
  qid : Qid
  deriving DecidableEq, Repr

namespace Session

variable {m : Type → Type} [Monad m] [Machine m] [Relies m]

/-- Give a fid back, whatever the server says to it. -/
def release (fid : UInt32) : Client Unit := do
  let _ ← Client.attempt (clunk fid)

/-- Give a fid back, if there is one. -/
def releaseAny : Option UInt32 → Client Unit
  | some fid => release fid
  | none => pure ()

/-- Walk `names` one at a time from `current`. The fid of the step before, if
there was one, is `owned`. A name that leads up from the root is not found: a
server would stay where it is. -/
def descend (root : Qid) : (owned : Option UInt32) → (current : Location) → List String →
    Client Location
  | _, current, [] => pure current
  | owned, current, name :: names => do
    if name == Path.parent && current.qid.sameObject root then
      releaseAny owned
      throw (.server .notFound)
    let fid ← Client.freshFid
    let step ← Client.attempt (walk current.fid fid [name])
    releaseAny owned
    match step with
    | .error e => throw e
    | .ok [] => relying False (throw (.server .notFound))
    | .ok (qid :: _) => descend root (some fid) { fid, qid } names

/-- Resolve a path from `start`, or from `root` if it is absolute, to a fresh
fid. -/
def resolve (root start : Location) (path : String) : Client Location := do
  let atRoot := start.fid == root.fid || start.qid.sameObject root.qid
  let plan ← Path.plan path atRoot
  let origin := if plan.fromRoot then root else start
  if plan.names.isEmpty then
    let fid ← Client.freshFid
    let _ ← walk origin.fid fid []
    pure { fid, qid := origin.qid }
  else descend root.qid none origin plan.names

end Session

end NineP
