/-!
# Sizes for people

A number of bytes is shown with a binary unit and, above bytes, one decimal
digit. The number is first rounded to 53 significant bits; the unit is chosen
on that value, and the digit is rounded to the nearest, ties to even.

* `roundTo_of_lt`: numbers of no more bits are not rounded.
-/

namespace NineP.Size

/-- `num / den` rounded to the nearest whole number, ties to even. -/
def roundDiv (num den : Nat) : Nat :=
  let q := num / den
  let r := num % den
  if 2 * r < den then q
  else if 2 * r > den then q + 1
  else if q % 2 = 0 then q else q + 1

/-- A number rounded to `bits` significant bits, ties to even. -/
def roundTo (bits n : Nat) : Nat :=
  if n < 1 <<< bits then n
  else
    let unit := 1 <<< (Nat.log2 n + 1 - bits)
    roundDiv n unit * unit

/-- The units above bytes. -/
def units : List String := ["K", "M", "G", "T"]

/-- Choose the unit of a value: the value of the chosen unit in bytes and its
name. The last unit takes everything. -/
def chooseUnit (n : Nat) : (scale : Nat) → (name : String) → List String → Nat × String
  | scale, name, [] => (scale, name)
  | scale, name, next :: more =>
    if n ≥ 1024 * scale then chooseUnit n (1024 * scale) next more else (scale, name)

/-- The text of a number of bytes. -/
def text (bytes : Nat) : String :=
  let n := roundTo 53 bytes
  let (scale, name) := chooseUnit n 1 "B" units
  if scale = 1 then toString bytes ++ name
  else
    let tenths := roundDiv (10 * n) scale
    toString (tenths / 10) ++ "." ++ toString (tenths % 10) ++ name

theorem roundTo_of_lt {bits n : Nat} (h : n < 1 <<< bits) : roundTo bits n = n := by
  simp [roundTo, h]

end NineP.Size
