import NineP.CommandLine
import NineP.Listing
import NineP.Volume

/-!
# The program

Each command opens what it is about, prints what it finds and closes it. The
volume is mounted before and unmounted after; the first failure of the command
and then that of unmounting decides the exit status.
-/

namespace NineP.Program

/-- Print bytes. -/
def print (bytes : Bytes) : Client Unit := Client.ofExchange (Exchange.perform (.print bytes))

/-- Print a text. -/
def printText (s : String) : Client Unit := print (Text.toBytes s)

/-- The most bytes that are read before they are printed. -/
def chunkSize : Nat := 65536

/-- The number of entries or chunks after which a command gives up. -/
def patience : Nat := UInt64.size

/-- All entries of a directory, behind those in `acc`, which stand in
reverse. -/
def allEntries : (fuel : Nat) → (h : Handle) → (acc : List FileInfo) →
    Client (List FileInfo × Handle)
  | 0, _, _ => throw .outOfResources
  | fuel + 1, h, acc => do
    match ← Handle.readEntry.runOn h with
    | (.error e, _) => throw e
    | (.ok none, h) => pure (acc.reverse, h)
    | (.ok (some info), h) => allEntries fuel h (info :: acc)

/-- Print the bytes of a file, chunk by chunk. -/
def printAll : (fuel : Nat) → (h : Handle) → Client Handle
  | 0, _ => throw .outOfResources
  | fuel + 1, h => do
    match ← (Handle.readData chunkSize).runOn h with
    | (.error e, _) => throw e
    | (.ok [], h) => pure h
    | (.ok bytes@(_ :: _), h) =>
      print bytes
      printAll fuel h

/-- The result of an operation on a handle and the handle after it, or its
failure. -/
def on (h : Handle) (x : HandleClient α) : Client (α × Handle) := do
  match ← x.runOn h with
  | (.ok a, h) => pure (a, h)
  | (.error e, _) => throw e

/-- The entries of a listing in the order of their names. -/
def sorted (entries : List FileInfo) : List FileInfo :=
  entries.mergeSort fun a b => compare a.name b.name != .gt

/-- Carry out a command on a mounted volume. -/
def carryOut (volume : Volume) : Command → Client Unit
  | .list path long => do
    let h ← volume.openPath path
    let (entries, h) ← allEntries patience h []
    h.close
    (sorted entries).forM fun info => printText (Listing.entry info long)
  | .cat path => do
    let h ← volume.openPath path
    let h ← printAll patience h
    h.close
  | .stat path => do
    let h ← volume.openPath path
    let (info, h) ← on h Handle.getInfo
    h.close
    printText (Listing.file info h.location.qid)
  | .statfs => do
    let info ← volume.fsInfo
    printText (Listing.volume info)
  | .readlink path => do
    let h ← volume.openPath path
    let (target, h) ← on h Handle.linkTarget
    h.close
    printText (target ++ "\n")

/-- Mount, carry out the command and unmount. -/
def session (config : Config) (command : Command) : Exchange Unit := do
  let (volume, s) ← Volume.mount config
  let (result, s) ← (carryOut volume command).runIn s
  let (unmounted, _) ← volume.unmount.runIn s
  match result with
  | .error e => throw e
  | .ok _ => unmounted

/-- The name and the version of the program. -/
def versionText : String := "p9cli 0.1.0\n"

/-- Do what the program is asked for. -/
def run : Invocation → Exchange Unit
  | .version => Exchange.perform (.print (Text.toBytes versionText))
  | .work settings => do
    let config ← settings.config
    session config settings.command

/-- The exit status of a result. -/
def status : Except Error Unit → Nat
  | .ok _ => 0
  | .error e => e.errno

/-- What is said about a result. -/
def report : Except Error Unit → String
  | .ok _ => ""
  | .error e => s!"Error: {e.message}\n"

/-- The exit status of a command line that makes no sense. -/
def usageStatus : Nat := 2

end NineP.Program
