/-!
# Numerals

How numbers are written: in decimal or hexadecimal digits, padded with zeros to
a width, and how a decimal numeral is read: an optional plus sign and ASCII
digits, no more.

* `readDigits?_isSome_iff`: digits are read exactly when there are some and all
  of them are digits of the base.
-/

namespace NineP.Text

/-- Put `fill` in front of `s` until it is `width` characters long. -/
def padLeft (width : Nat) (fill : Char) (s : String) : String :=
  String.ofList (List.replicate (width - s.length) fill ++ s.toList)

/-- The lower-case hexadecimal digits of a number. -/
def hexDigits (n : Nat) : String := String.ofList (Nat.toDigits 16 n)

/-- A hexadecimal numeral with at least `width` digits. -/
def hex (width n : Nat) : String := "0x" ++ padLeft width '0' (hexDigits n)

/-- A decimal numeral with at least `width` digits. -/
def decimal (width n : Nat) : String := padLeft width '0' (toString n)

/-- The value of a digit of the given base, either case. -/
def digit? (base : Nat) (c : Char) : Option Nat :=
  let value :=
    if '0' ≤ c ∧ c ≤ '9' then some (c.toNat - 48)
    else if 'a' ≤ c ∧ c ≤ 'z' then some (c.toNat - 87)
    else if 'A' ≤ c ∧ c ≤ 'Z' then some (c.toNat - 55)
    else none
  value.filter (· < base)

/-- The value of a row of digits, continuing from `acc`. -/
def foldDigits? (base : Nat) : (acc : Nat) → List Char → Option Nat
  | acc, [] => some acc
  | acc, c :: cs => do
    let d ← digit? base c
    foldDigits? base (acc * base + d) cs

/-- The value of a row of at least one digit. -/
def readDigits? (base : Nat) (cs : List Char) : Option Nat :=
  if cs.isEmpty then none else foldDigits? base 0 cs

/-- Read a decimal numeral, which may have a plus sign in front, as a number up
to `max`. -/
def readNatural? (max : Nat) (s : String) : Option Nat :=
  let digits := match s.toList with
    | '+' :: cs => cs
    | cs => cs
  (readDigits? 10 digits).filter (· ≤ max)

theorem foldDigits?_isSome_iff {base acc : Nat} {cs : List Char} :
    (foldDigits? base acc cs).isSome ↔ ∀ c ∈ cs, (digit? base c).isSome := by
  induction cs generalizing acc with
  | nil => simp [foldDigits?]
  | cons c cs ih =>
    cases h : digit? base c with
    | none => simp [foldDigits?, h]
    | some d => simp [foldDigits?, h, ih]

theorem readDigits?_isSome_iff {base : Nat} {cs : List Char} :
    (readDigits? base cs).isSome ↔ cs ≠ [] ∧ ∀ c ∈ cs, (digit? base c).isSome := by
  cases cs with
  | nil => simp [readDigits?]
  | cons c cs => simp [readDigits?, foldDigits?_isSome_iff]

end NineP.Text
