import NineP.Frame
import NineP.Proofs.World.Wire
import NineP.World.Scripted

/-!
# Runs with scripted peers

A scripted peer answers each call in one way, so that what it is asked and what
comes of it can be computed:

* `Scripted.runs`: what is computed is a run;
* `Scripted.runs_recorded`: so is what is computed with the record of what goes over
  the wire;
* `Scripted.Step.sized`: no receive gives more than was asked for.
-/

namespace NineP.Scripted

/-- The steps of a scripted peer. -/
def Step (p : Scripted) (c : Call) (answer : Answer) (q : Scripted) : Prop :=
  p.answer c = (answer, q)

/-- What comes of a dialogue with a scripted peer, and the peer after it. -/
def after (d : Dialogue α) (p : Scripted) : α × Scripted := (d.run world).run p

theorem runs (d : Dialogue α) (p : Scripted) : d.Runs Step p (after d p).1 (after d p).2 :=
  Dialogue.runs_of_run (fun _ _ => rfl) d p

theorem Step.sized {p q : Scripted} {most : Nat} {bytes : Bytes}
    (h : Step p (.receive most) (.done bytes) q) : bytes.length ≤ most :=
  receive_length_le h

/-- A scripted peer fails as a transport does. -/
theorem Step.fault {p q : Scripted} {c : Call} {e : Error} (h : Step p c (.failed e) q) :
    ∃ fault, e = .transport fault := by
  have doneUnless {fault : Option Fault} {q' : Scripted}
      (h : (Scripted.doneUnless fault, q') = (.failed e, q)) : ∃ fault, e = .transport fault := by
    cases fault with
    | none => cases h
    | some fault => exact ⟨fault, (Answer.failed.inj (Prod.mk.inj h).1).symm⟩
  cases c with
  | configure => exact doneUnless h
  | connect => exact doneUnless h
  | close => exact doneUnless h
  | print => cases h
  | transmit bytes =>
    simp only [Step, answer, transmit] at h
    split at h
    · exact ⟨_, (Answer.failed.inj (Prod.mk.inj h).1).symm⟩
    split at h
    · exact ⟨_, (Answer.failed.inj (Prod.mk.inj h).1).symm⟩
    · cases h
  | receive most =>
    simp only [Step, answer, receive] at h
    split at h
    · exact ⟨_, (Answer.failed.inj (Prod.mk.inj h).1).symm⟩
    split at h
    · split at h
      · cases h
      split at h
      · exact ⟨_, (Answer.failed.inj (Prod.mk.inj h).1).symm⟩
      · cases h
    · cases h

/-- What comes of a dialogue with a scripted peer, and the record after it of what has
gone over the wire. -/
def recorded : Dialogue α → Scripted → Wire → α × Wire
  | .done a, _, log => (a, log)
  | .ask c next, p, log =>
    let (answer, q) := p.answer c
    recorded (next answer) q (log.record c answer)

theorem runs_recorded (d : Dialogue α) (p : Scripted) (log : Wire) :
    d.Runs Wire.Step log (recorded d p log).1 (recorded d p log).2 := by
  induction d generalizing p log with
  | done a => exact .done log a
  | ask c next ih =>
    refine .ask ⟨fun e he _ => ?_, rfl⟩ (ih (p.answer c).1 (p.answer c).2 _)
    exact Step.fault (show p.answer c = (.failed e, (p.answer c).2) from Prod.ext he rfl)

/-- What comes of a dialogue does not depend on what went before. -/
theorem recorded_fst (d : Dialogue α) (p : Scripted) (log : Wire) :
    (recorded d p log).1 = (after d p).1 := by
  induction d generalizing p log with
  | done a => rfl
  | ask c next ih => exact ih (p.answer c).1 (p.answer c).2 _

/-- The requests that a peer was sent. -/
def requests (p : Scripted) : List Body :=
  p.record.reverse.filterMap fun event =>
    match event with
    | .sent bytes => (Frame.decode bytes).toOption.map Message.body
    | _ => none

end NineP.Scripted
