import NineP.Text.Invisible
import NineP.Text.Numeral

/-!
# Quoted texts

Texts from outside are shown to the user between double quotes. The quote, the
backslash and the usual control characters have short escapes; a character
without a glyph of its own is shown by its number.

* `quoted_of_plain`: a text of plain characters is shown as it is.
-/

namespace NineP.Text

/-- How a character stands between quotes. -/
def escape (c : Char) : List Char :=
  match c with
  | '\x00' => ['\\', '0']
  | '\t' => ['\\', 't']
  | '\r' => ['\\', 'r']
  | '\n' => ['\\', 'n']
  | '"' => ['\\', '"']
  | '\\' => ['\\', '\\']
  | c =>
    if isInvisible c then ['\\', 'u', '\x7b'] ++ Nat.toDigits 16 c.toNat ++ ['\x7d'] else [c]

/-- A text between double quotes. -/
def quoted (s : String) : String :=
  String.ofList (['"'] ++ s.toList.flatMap escape ++ ['"'])

/-- A character that stands for itself between quotes. -/
def isPlain (c : Char) : Prop := escape c = [c]

theorem quoted_of_plain {s : String} (h : ∀ c ∈ s.toList, isPlain c) :
    (quoted s).toList = ['"'] ++ s.toList ++ ['"'] := by
  have key : ∀ cs : List Char, (∀ c ∈ cs, isPlain c) → cs.flatMap escape = cs := by
    intro cs
    induction cs with
    | nil => intro _; rfl
    | cons c cs ih =>
      intro hc
      have hcc : escape c = [c] := hc c List.mem_cons_self
      rw [List.flatMap_cons, hcc, ih fun d hd => hc d (List.mem_cons_of_mem _ hd)]
      rfl
  rw [quoted, String.toList_ofList, key _ h]

end NineP.Text
