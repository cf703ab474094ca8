/-!
# Conditions that programs rely on

Some steps of a program have a result for certain arguments only: an element is
taken out of a list, a slice out of a buffer, a number off another one. A
program says what such a step relies on, and has a result for all arguments
nevertheless. What is to become of a program that relies on a condition in vain,
the monad that it is written in decides.
-/

namespace NineP

/-- Monads in which programs may rely on conditions. -/
class Relies (m : Type → Type) where
  /-- Go on with `x`, which relies on `c`. -/
  relying {α : Type} (c : Prop) [Decidable c] (x : m α) : m α

export Relies (relying)

/-- A result is one in any case. -/
instance : Relies (Except ε) where
  relying _ _ x := x

theorem relying_except (c : Prop) [Decidable c] (x : Except ε α) : relying c x = x := rfl

instance [Relies m] : Relies (StateT σ m) where
  relying c _ x := fun s => relying c (x s)

instance [Relies m] : Relies (ExceptT ε m) where
  relying c _ x := ExceptT.mk (relying c x.run)

end NineP
