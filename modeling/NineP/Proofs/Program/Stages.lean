import NineP.Program
import NineP.Proofs.Session.Runs

/-!
# The stages of a program

What a program does is cut where it matters what becomes of its fids: between opening a
handle and closing it stands one operation on that handle (`work`), and before the
connection is closed stands all that is said to the server (`course`).

* `allEntries_eq`, `printAll_eq`: the loops over a handle as operations on it;
* `carryOut_eq`: a command opens its path, does its work and closes the handle;
* `carryOut_conduct`: if its work fails, then the handle is left open (`conduct`);
* `session_eq`: a program runs its course, and then closes its connection.
-/

namespace NineP.Program

/-- All entries of a directory, behind those in `acc`, which stand in reverse, as one
operation on its handle. -/
def entries : (fuel : Nat) → (acc : List FileInfo) → HandleClient (List FileInfo)
  | 0, _ => throw .outOfResources
  | fuel + 1, acc => do
    match ← Handle.readEntry with
    | none => pure acc.reverse
    | some info => entries fuel (info :: acc)

/-- Print the bytes of a file, as one operation on its handle. -/
def contents : (fuel : Nat) → HandleClient Unit
  | 0 => throw .outOfResources
  | fuel + 1 => do
    match ← Handle.readData chunkSize with
    | [] => pure ()
    | bytes@(_ :: _) =>
      HandleClient.ofClient (print bytes)
      contents fuel

/-- The path that a command opens and what it does with the handle. The texts that come
of it are printed once the handle is closed. -/
def work : Command → Option (String × HandleClient (List String))
  | .list path long => some (path, do
    let found ← entries patience []
    pure ((sorted found).map fun info => Listing.entry info long))
  | .cat path => some (path, do
    contents patience
    pure [])
  | .stat path => some (path, do
    let info ← Handle.getInfo
    let h ← get
    pure [Listing.file info h.location.qid])
  | .readlink path => some (path, do
    let target ← Handle.linkTarget
    pure [target ++ "\n"])
  | .statfs => none

section

variable {α β : Type} {h : Handle} {s : Session}

/-- An operation on a handle is the same dialogue as one of the session. -/
theorem run_on (x : HandleClient α) :
    (on h x).run = (fun r => (fun a => (a, r.2)) <$> r.1) <$> x.run.run h := by
  rw [on, ExceptT.run_bind]
  show (Except.ok <$> x.run.run h >>= fun r => _) = _
  rw [bind_map_left, map_eq_pure_bind]
  refine congrArg (_ >>= ·) (funext fun r => ?_)
  obtain ⟨r, g⟩ := r
  cases r <;> rfl

theorem on_pure (a : α) : on h (pure a) = pure (a, h) := rfl

/-- What is read off the handle. -/
theorem on_get (f : Handle → α) : on h (do let h ← get; pure (f h)) = pure (f h, h) := rfl

/-- What comes after an operation on a handle goes on with its result, or not at all. -/
theorem run_on_bind (x : HandleClient α) (f : α × Handle → Client β) :
    (on h x >>= f).run = x.run.run h >>= fun r =>
      match r with
      | (.ok a, g) => (f (a, g)).run
      | (.error e, _) => pure (.error e) := by
  rw [ExceptT.run_bind, run_on, bind_map_left]
  refine congrArg (_ >>= ·) (funext fun r => ?_)
  obtain ⟨r, g⟩ := r
  cases r <;> rfl

theorem on_bind (x : HandleClient α) (f : α → HandleClient β) :
    on h (x >>= f) = on h x >>= fun r => on r.2 (f r.1) := by
  refine ExceptT.ext ?_
  rw [run_on_bind, run_on, ExceptT.run_bind, StateT.run_bind, map_bind]
  refine congrArg (_ >>= ·) (funext fun r => ?_)
  obtain ⟨r, g⟩ := r
  cases r with
  | ok a => exact (run_on (f a)).symm
  | error e => rfl

/-- An operation of the session leaves the handle as it is. -/
theorem on_ofClient (x : Client α) :
    on h (HandleClient.ofClient x) = x >>= fun a => pure (a, h) := by
  refine ExceptT.ext ?_
  rw [run_on, ExceptT.run_bind]
  show _ <$> (x.run >>= fun r => pure (r, h)) = _
  rw [map_bind]
  refine congrArg (_ >>= ·) (funext fun r => ?_)
  cases r <;> rfl

theorem allEntries_eq (fuel : Nat) (h : Handle) (acc : List FileInfo) :
    allEntries fuel h acc = on h (entries fuel acc) := by
  induction fuel generalizing h acc with
  | zero => rfl
  | succ fuel ih =>
    rw [entries, on_bind]
    refine ExceptT.ext ?_
    rw [run_on_bind, allEntries, ExceptT.run_bind]
    show Except.ok <$> Handle.readEntry.run.run h >>= _ = _
    rw [bind_map_left]
    refine congrArg (_ >>= ·) (funext fun r => ?_)
    obtain ⟨r, g⟩ := r
    cases r with
    | ok found =>
      cases found with
      | none => rfl
      | some info => exact congrArg ExceptT.run (ih g (info :: acc))
    | error e => rfl

theorem printAll_eq (fuel : Nat) (h : Handle) :
    printAll fuel h = Prod.snd <$> on h (contents fuel) := by
  induction fuel generalizing h with
  | zero => rfl
  | succ fuel ih =>
    rw [contents, on_bind, map_bind]
    refine ExceptT.ext ?_
    rw [run_on_bind, printAll, ExceptT.run_bind]
    show Except.ok <$> (Handle.readData chunkSize).run.run h >>= _ = _
    rw [bind_map_left]
    refine congrArg (_ >>= ·) (funext fun r => ?_)
    obtain ⟨r, g⟩ := r
    cases r with
    | ok bytes =>
      cases bytes with
      | nil => rfl
      | cons byte bytes =>
        show (print (byte :: bytes) >>= fun _ => printAll fuel g).run =
          (Prod.snd <$> on g (HandleClient.ofClient (print (byte :: bytes)) >>= fun _ =>
            contents fuel)).run
        rw [on_bind, map_bind, on_ofClient, bind_assoc]
        exact congrArg (fun f => (print (byte :: bytes) >>= f).run) (funext fun _ => ih g)
    | error e => rfl

theorem forM_map (f : α → β) (g : β → Client PUnit) (as : List α) :
    (as.map f).forM g = as.forM fun a => g (f a) := by
  induction as with
  | nil => rfl
  | cons a as ih =>
    show g (f a) >>= (fun _ => (as.map f).forM g) = g (f a) >>= fun _ => as.forM fun a => g (f a)
    rw [ih]

/-- A command opens its path, does its work on the handle and closes it. Then it prints. -/
theorem carryOut_eq {command : Command} {path : String} {x : HandleClient (List String)}
    (hw : work command = some (path, x)) (volume : Volume) :
    carryOut volume command = (do
      let h ← volume.openPath path
      let (texts, h) ← on h x
      h.close
      texts.forM printText) := by
  cases command with
  | list path' long =>
    cases hw
    rw [carryOut]
    refine congrArg (volume.openPath path >>= ·) (funext fun h => ?_)
    rw [on_bind, bind_assoc, allEntries_eq]
    refine congrArg (on h (entries patience []) >>= ·) (funext fun (found, g) => ?_)
    rw [on_pure, pure_bind]
    exact congrArg (g.close >>= ·) (funext fun _ => (forM_map ..).symm)
  | cat path' =>
    cases hw
    rw [carryOut]
    refine congrArg (volume.openPath path >>= ·) (funext fun h => ?_)
    rw [on_bind, bind_assoc, printAll_eq, bind_map_left]
    refine congrArg (on h (contents patience) >>= ·) (funext fun (_, g) => ?_)
    rw [on_pure, pure_bind]
    show g.close = g.close >>= fun _ => pure ()
    exact (bind_pure_unit ..).symm
  | stat path' =>
    cases hw
    rw [carryOut]
    refine congrArg (volume.openPath path >>= ·) (funext fun h => ?_)
    rw [on_bind, bind_assoc]
    refine congrArg (on h Handle.getInfo >>= ·) (funext fun (info, g) => ?_)
    rw [on_get, pure_bind]
    exact congrArg (g.close >>= ·) (funext fun _ => (bind_pure_unit ..).symm)
  | statfs => cases hw
  | readlink path' =>
    cases hw
    rw [carryOut]
    refine congrArg (volume.openPath path >>= ·) (funext fun h => ?_)
    rw [on_bind, bind_assoc]
    refine congrArg (on h Handle.linkTarget >>= ·) (funext fun (target, g) => ?_)
    rw [on_pure, pure_bind]
    exact congrArg (g.close >>= ·) (funext fun _ => (bind_pure_unit ..).symm)

end

/-- Carry out a command on a mounted volume: its result, and the handle that it has left
open, if there is one. -/
def conduct (volume : Volume) (command : Command) :
    StateT Session Dialogue (Except Error Unit × Option Handle) :=
  match work command with
  | none => do
    let result ← (carryOut volume command).run
    pure (result, none)
  | some (path, x) => do
    match ← (volume.openPath path).run with
    | .error e => pure (.error e, none)
    | .ok h =>
      match ← x.run.run h with
      | (.error e, h) => pure (.error e, some h)
      | (.ok texts, h) =>
        let result ← (do h.close; texts.forM printText : Client Unit).run
        pure (result, none)

/-- What a program comes to before it closes its connection. -/
inductive Ending where
  /-- There is no connection. -/
  | unconnected (e : Error)
  /-- The export could not be attached to. -/
  | unattached (e : Error)
  /-- The command has been carried out, and the root's fid was given back as far as the
  server would have it. -/
  | finished (result : Except Error Unit) (left : Option Handle) (clunked : Except Error Unit)

/-- Close the connection, if there is one. The first failure is reported, but one to close
before one to give the root's fid back. -/
def Ending.finish : Ending → Exchange Unit
  | .unconnected e => throw e
  | .unattached e => do
    let _ ← Exchange.attempt (Exchange.perform .close)
    throw e
  | .finished result _ clunked => do
    let closed ← Exchange.attempt (Exchange.perform .close)
    result
    closed
    clunked

/-- Get a connection as the configuration has it. -/
def connect (config : Config) : Exchange Unit := do
  config.validate
  Exchange.perform (.configure config.endpoints)
  Exchange.perform .connect

/-- What is done with a volume once it is mounted. -/
def errand (volume : Volume) (command : Command) (s : Session) : Dialogue Ending := do
  let ((result, left), s) ← (conduct volume command).run s
  let (clunked, _) ← (Session.clunk volume.root.fid).runIn s
  pure (.finished result left clunked)

/-- All that a program does before it closes its connection. -/
def course (config : Config) (command : Command) : Dialogue Ending := do
  match ← (connect config).run with
  | .error e => pure (.unconnected e)
  | .ok _ =>
    match ← (Volume.attach config).runIn { timeout := config.timeout } with
    | (.error e, _) => pure (.unattached e)
    | (.ok root, s) => errand { root, config } command s

theorem carryOut_conduct (volume : Volume) (command : Command) :
    (carryOut volume command).run = Prod.fst <$> conduct volume command := by
  rw [conduct]
  cases hw : work command with
  | none =>
    rw [map_bind]
    exact (bind_pure _).symm
  | some opened =>
    obtain ⟨path, x⟩ := opened
    rw [carryOut_eq hw, ExceptT.run_bind, map_bind]
    refine congrArg (_ >>= ·) (funext fun r => ?_)
    cases r with
    | error e => rfl
    | ok h =>
      show (on h x >>= _ : Client Unit).run = Prod.fst <$> (x.run.run h >>= _)
      rw [run_on_bind, map_bind]
      refine congrArg (_ >>= ·) (funext fun r => ?_)
      obtain ⟨r, g⟩ := r
      cases r with
      | error e => rfl
      | ok texts =>
        rw [map_bind]
        exact (bind_pure _).symm

/-- Mounting is to connect and then to attach. -/
theorem mount_eq (config : Config) : Volume.mount config = connect config >>= fun _ => (do
    let (attached, session) ← (Volume.attach config).runIn { timeout := config.timeout }
    match attached with
    | .ok root => pure ({ root, config }, session)
    | .error e =>
      let _ ← Exchange.attempt (Exchange.perform .close)
      throw e) := by
  rw [connect, bind_assoc]
  refine congrArg (_ >>= ·) (funext fun _ => ?_)
  exact (bind_assoc ..).symm

/-- A volume is unmounted in two steps: its root is given back and the connection closed. -/
theorem runIn_unmount (volume : Volume) (s : Session) : volume.unmount.runIn s =
    (Session.clunk volume.root.fid).runIn s >>= fun clunked =>
      (Exchange.perform .close).run >>= fun closed =>
        .done (closed >>= fun _ => clunked.1, clunked.2) := by
  show ((Session.clunk volume.root.fid).runIn s >>= fun r => .done (Except.ok r.1, r.2)) >>= _ = _
  rw [bind_assoc]
  refine congrArg (_ >>= ·) (funext fun r => ?_)
  obtain ⟨r, t⟩ := r
  refine congrArg (Dialogue.ask .close) (funext fun answer => ?_)
  cases answer <;> rfl

theorem errand_eq (volume : Volume) (command : Command) (s : Session) :
    (do
      let (result, s) ← (carryOut volume command).runIn s
      let (unmounted, _) ← volume.unmount.runIn s
      match result with
      | .error e => throw e
      | .ok _ => unmounted : Exchange Unit).run =
    errand volume command s >>= fun ending => ending.finish.run := by
  show (ExceptT.lift ((carryOut volume command).runIn s) >>= _ : Exchange Unit).run = _
  rw [ExceptT.run_bind_lift]
  show (carryOut volume command).run s >>= _ = _
  rw [carryOut_conduct]
  show (conduct volume command s >>= fun r => .done (r.1.1, r.2)) >>= _ =
    (conduct volume command s >>= _) >>= _
  rw [bind_assoc, bind_assoc]
  refine congrArg (_ >>= ·) (funext fun r => ?_)
  obtain ⟨⟨result, left⟩, t⟩ := r
  rw [Dialogue.done_bind]
  show (ExceptT.lift (volume.unmount.runIn t) >>= _ : Exchange Unit).run =
    ((Session.clunk volume.root.fid).runIn t >>= _) >>= _
  rw [ExceptT.run_bind_lift, runIn_unmount, bind_assoc, bind_assoc]
  refine congrArg (_ >>= ·) (funext fun r => ?_)
  refine congrArg (Dialogue.ask .close) (funext fun answer => ?_)
  cases answer <;> cases result <;> rfl

/-- A program runs its course, and then closes its connection. -/
theorem session_eq (config : Config) (command : Command) :
    (session config command).run = course config command >>= fun ending => ending.finish.run := by
  rw [session, mount_eq, bind_assoc, ExceptT.run_bind, course]
  refine Eq.trans ?_ (bind_assoc ..).symm
  refine congrArg (_ >>= ·) (funext fun r => ?_)
  cases r with
  | error e => rfl
  | ok _ =>
    rw [bind_assoc]
    refine Eq.trans ?_ (bind_assoc ..).symm
    show (ExceptT.lift ((Volume.attach config).runIn { timeout := config.timeout }) >>= _ :
      Exchange Unit).run = _
    rw [ExceptT.run_bind_lift]
    refine congrArg (_ >>= ·) (funext fun r => ?_)
    obtain ⟨r, s⟩ := r
    cases r with
    | error e =>
      refine congrArg (Dialogue.ask .close) (funext fun answer => ?_)
      cases answer <;> rfl
    | ok root => exact errand_eq { root, config } command s

end NineP.Program
