import NineP.Address.Socket
import NineP.Error
import NineP.Reliance

/-!
# Dialogues with the world

A client is a dialogue: it calls on the byte stream to its server, and on its
own output, and goes on according to the answers. A dialogue is a tree, with a
call at each inner node and a branch for each answer, so that what a client
does is known for every world it may meet.

* `run_bind`: running two dialogues one after the other is running the first
  and then the second;
* `LawfulMonad Dialogue`: dialogues compose as programs do.

The programs of a client are written for every machine that makes their calls
(`Machine`). If nothing else is said, they are dialogues.
-/

namespace NineP

/-- What a client asks of the world. -/
inductive Call where
  /-- Take note of where to connect from and to. -/
  | configure (endpoints : Endpoints)
  | connect
  /-- Send all of the bytes. If there is a limit, in milliseconds, then this call
  and the receives up to the next transmit stall once it has passed. -/
  | transmit (bytes : Bytes) (limit : Option UInt64)
  /-- Receive at most so many bytes; none when the stream has ended. -/
  | receive (most : Nat)
  /-- Shut the stream down. -/
  | close
  /-- Write bytes to the client's own output. -/
  | print (bytes : Bytes)
  deriving Repr

/-- What comes of a call. -/
inductive Answer where
  /-- It is done. The bytes are those received. -/
  | done (bytes : Bytes)
  | failed (error : Error)
  /-- The time limit passed first. -/
  | stalled
  deriving DecidableEq, Repr

/-- A client's side of an exchange with the world, with a result in the end. -/
inductive Dialogue (α : Type) where
  | done (result : α)
  | ask (call : Call) (next : Answer → Dialogue α)

namespace Dialogue

/-- Make a call; the result is its answer. -/
def call (c : Call) : Dialogue Answer := .ask c .done

/-- Go on with the result. -/
protected def bind : Dialogue α → (α → Dialogue β) → Dialogue β
  | .done a, f => f a
  | .ask c next, f => .ask c fun answer => (next answer).bind f

instance : Monad Dialogue where
  pure := .done
  bind := Dialogue.bind

@[simp] theorem done_bind (a : α) (f : α → Dialogue β) : (.done a : Dialogue α) >>= f = f a := rfl

@[simp] theorem pure_eq_done (a : α) : (pure a : Dialogue α) = .done a := rfl

@[simp] theorem ask_bind (c : Call) (next : Answer → Dialogue α) (f : α → Dialogue β) :
    (.ask c next : Dialogue α) >>= f = .ask c fun answer => next answer >>= f := rfl

theorem bind_done (x : Dialogue α) : x >>= Dialogue.done = x := by
  induction x with
  | done a => rfl
  | ask c next ih => exact congrArg (Dialogue.ask c) (funext ih)

theorem bind_assoc (x : Dialogue α) (f : α → Dialogue β) (g : β → Dialogue γ) :
    x >>= f >>= g = x >>= fun a => f a >>= g := by
  induction x with
  | done a => rfl
  | ask c next ih => exact congrArg (Dialogue.ask c) (funext ih)

instance : LawfulMonad Dialogue :=
  LawfulMonad.mk' Dialogue (fun x => bind_done x) (fun _ _ => rfl) bind_assoc

/-- Run a dialogue in a world that answers every call. -/
@[specialize] def run [Monad m] (world : Call → m Answer) : Dialogue α → m α
  | .done a => pure a
  | .ask c next => do
    let answer ← world c
    run world (next answer)

@[simp] theorem run_done [Monad m] (world : Call → m Answer) (a : α) :
    (Dialogue.done a).run world = pure a := rfl

@[simp] theorem run_ask [Monad m] (world : Call → m Answer) (c : Call)
    (next : Answer → Dialogue α) :
    (Dialogue.ask c next).run world = world c >>= fun answer => (next answer).run world := rfl

@[simp] theorem run_call [Monad m] [LawfulMonad m] (world : Call → m Answer) (c : Call) :
    (call c).run world = world c := by
  simp [call]

@[simp] theorem run_bind [Monad m] [LawfulMonad m] (world : Call → m Answer) (x : Dialogue α)
    (f : α → Dialogue β) : (x >>= f).run world = x.run world >>= fun a => (f a).run world := by
  induction x with
  | done a => simp
  | ask c next ih => simp [ih]

end Dialogue

/-- What the programs of a client are carried out by: something that makes calls on
the world. -/
class Machine (m : outParam (Type → Type)) where
  call : Call → m Answer

instance : Machine Dialogue where
  call := Dialogue.call

/-- A dialogue goes on whatever it relies on. -/
instance : Relies Dialogue where
  relying _ _ x := x

end NineP
