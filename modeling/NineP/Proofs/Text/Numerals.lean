import Mathlib.Data.List.TakeWhile
import NineP.Text.Blank
import NineP.Text.Numeral
import NineP.Text.Split

/-!
# What is written is read

A number that is written in decimal digits is read as that number, and a text with white
space around it as that text. What is put together with a separator is taken apart at it,
as long as the parts have none:

* `readDigits?_toDigits`, `readNatural?_toString`: numbers;
* `digit?_isSome_of_readDigits?`: what is read as a number has digits alone;
* `trim_of_padded`: white space around a word;
* `splitFirst?_append_cons`, `splitLast?_append_cons`: separators;
* `exists_mem_splitAll`: what is not a separator is in one of the parts.
-/

namespace NineP.Text

/-! ## Numbers -/

theorem digit?_of_isDigit {c : Char} (h : c.isDigit = true) :
    digit? 10 c = some (c.toNat - '0'.toNat) := by
  have hrange : '0' ≤ c ∧ c ≤ '9' := by
    rw [Char.isDigit, Bool.and_eq_true, decide_eq_true_iff, decide_eq_true_iff] at h
    exact h
  have hle : c.toNat ≤ 57 := UInt32.le_iff_toNat_le.1 hrange.2
  have hless : decide (c.toNat - 48 < 10) = true := decide_eq_true (by omega)
  simp only [digit?, if_pos hrange, Option.filter_some, hless, if_true]
  rfl

/-- Digits are read as what they stand for behind the number in front of them. -/
theorem foldDigits?_of_isDigit {cs : List Char} (h : ∀ c ∈ cs, c.isDigit = true) (acc : Nat) :
    foldDigits? 10 acc cs = some (Nat.ofDigitChars 10 cs acc) := by
  induction cs generalizing acc with
  | nil => rfl
  | cons c cs ih =>
    obtain ⟨hc, hcs⟩ := List.forall_mem_cons.1 h
    rw [foldDigits?, digit?_of_isDigit hc, Nat.ofDigitChars_cons, Nat.mul_comm 10 acc]
    exact ih hcs _

theorem isDigit_of_mem_toDigits {n : Nat} : ∀ c ∈ Nat.toDigits 10 n, c.isDigit = true :=
  fun _ hc => Nat.isDigit_of_mem_toDigits (by decide) (by decide) hc

theorem readDigits?_toDigits (n : Nat) : readDigits? 10 (Nat.toDigits 10 n) = some n := by
  have hne : (Nat.toDigits 10 n).isEmpty = false := by simp
  rw [readDigits?, hne, if_neg Bool.false_ne_true, foldDigits?_of_isDigit isDigit_of_mem_toDigits,
    Nat.ofDigitChars_ten_toDigits]

theorem toList_toString (n : Nat) : (toString n).toList = Nat.toDigits 10 n := Nat.toList_repr

/-- A decimal numeral is read as its number, unless that is too large. -/
theorem readNatural?_toString {max n : Nat} (h : n ≤ max) :
    readNatural? max (toString n) = some n := by
  have hsign : ∀ cs, Nat.toDigits 10 n ≠ '+' :: cs := fun cs hcs => by
    have hplus : '+'.isDigit = true := isDigit_of_mem_toDigits '+' (hcs ▸ List.mem_cons_self)
    cases hplus
  rw [readNatural?, toList_toString]
  split
  · rename_i cs hcs
    exact absurd hcs (hsign cs)
  · rw [readDigits?_toDigits, Option.filter_some, if_pos (by simpa using h)]

/-- There are digits in a numeral and nothing else. -/
theorem not_mem_toDigits {c : Char} (h : c.isDigit = false) (n : Nat) : c ∉ Nat.toDigits 10 n :=
  fun hc => by
    rw [isDigit_of_mem_toDigits c hc] at h
    cases h

theorem not_mem_toString {c : Char} (h : c.isDigit = false) (n : Nat) :
    c ∉ (toString n).toList :=
  toList_toString n ▸ not_mem_toDigits h n

theorem digit?_isSome_of_readDigits? {base n : Nat} {cs : List Char}
    (h : readDigits? base cs = some n) : ∀ c ∈ cs, (digit? base c).isSome = true :=
  (readDigits?_isSome_iff.1 (Option.isSome_of_eq_some h)).2

/-- A digit is a digit of every greater base. -/
theorem digit?_isSome_mono {base base' : Nat} (hle : base ≤ base') {c : Char}
    (h : (digit? base c).isSome = true) : (digit? base' c).isSome = true := by
  simp only [digit?, Option.isSome_iff_exists, Option.filter_eq_some_iff, decide_eq_true_eq] at h ⊢
  obtain ⟨n, hn, hless⟩ := h
  exact ⟨n, hn, Nat.lt_of_lt_of_le hless hle⟩

/-- Besides digits there may only be a plus sign in a decimal numeral. -/
theorem not_mem_of_readNatural? {max n : Nat} {text : String} {c : Char}
    (h : readNatural? max text = some n) (hplus : c ≠ '+') (hdigit : digit? 10 c = none) :
    c ∉ text.toList := by
  intro hc
  obtain ⟨hread, -⟩ := Option.filter_eq_some_iff.1 h
  have hall := digit?_isSome_of_readDigits? hread c
  rw [hdigit] at hall
  split at hall
  · rename_i cs hcs
    rw [hcs, List.mem_cons] at hc
    cases hall (hc.resolve_left hplus)
  · cases hall hc

/-! ## White space -/

theorem isBlank_of_isDigit {c : Char} (h : c.isDigit = true) : isBlank c = false := by
  rw [Char.isDigit, Bool.and_eq_true, decide_eq_true_iff, decide_eq_true_iff] at h
  have hleast : 48 ≤ c.toNat := UInt32.le_iff_toNat_le.1 h.1
  have hmost : c.toNat ≤ 57 := UInt32.le_iff_toNat_le.1 h.2
  simp only [isBlank, Bool.or_eq_false_iff, Bool.and_eq_false_iff, decide_eq_false_iff_not,
    beq_eq_false_iff_ne]
  omega

/-- A text that is not empty and has no white space. -/
structure IsWord (text : String) : Prop where
  ne_empty : text ≠ ""
  isBlank : ∀ c ∈ text.toList, isBlank c = false

instance (text : String) : Decidable (IsWord text) :=
  decidable_of_iff (text ≠ "" ∧ text.toList.any isBlank = false)
    ⟨fun h => ⟨h.1, fun c hc => Bool.eq_false_iff.2 (List.any_eq_false.1 h.2 c hc)⟩,
      fun h => ⟨h.ne_empty, List.any_eq_false.2 fun c hc => Bool.eq_false_iff.1 (h.isBlank c hc)⟩⟩

theorem IsWord.append {a b : String} (ha : IsWord a) (hb : IsWord b) : IsWord (a ++ b) where
  ne_empty h := ha.ne_empty (String.append_eq_empty_iff.1 h).1
  isBlank c hc := by
    rw [String.toList_append, List.mem_append] at hc
    exact hc.elim (ha.isBlank c) (hb.isBlank c)

theorem isWord_toString (n : Nat) : IsWord (toString n) where
  ne_empty h := Nat.toDigits_ne_nil (by rw [← toList_toString, h]; rfl)
  isBlank c hc := isBlank_of_isDigit (isDigit_of_mem_toDigits c (toList_toString n ▸ hc))

/-- A text with white space around it, or none. -/
def Padded (text value : String) : Prop :=
  ∃ front back, value = front ++ text ++ back ∧ (∀ c ∈ front.toList, isBlank c = true) ∧
    ∀ c ∈ back.toList, isBlank c = true

theorem Padded.of_all {text value : String} (front back : String)
    (hvalue : value = front ++ text ++ back) (hfront : front.toList.all isBlank = true)
    (hback : back.toList.all isBlank = true) : Padded text value :=
  ⟨front, back, hvalue, List.all_eq_true.1 hfront, List.all_eq_true.1 hback⟩

theorem Padded.refl (text : String) : Padded text text := .of_all "" "" (by simp) rfl rfl

/-- White space around a word is dropped. -/
theorem trim_of_padded {text value : String} (h : Padded text value) (hword : IsWord text) :
    trim value = text := by
  obtain ⟨front, back, rfl, hfront, hback⟩ := h
  have hfirst : ((front ++ text ++ back).toList.dropWhile Text.isBlank) =
      (text.toList ++ back.toList).dropWhile Text.isBlank := by
    rw [String.toList_append, String.toList_append, List.append_assoc,
      List.dropWhile_append_of_pos hfront]
  rw [trim, hfirst]
  cases hcs : text.toList with
  | nil => exact absurd (String.toList_eq_nil_iff.1 hcs) hword.ne_empty
  | cons c cs =>
    have hblank := hword.isBlank
    rw [hcs] at hblank
    obtain ⟨hc, -⟩ := List.forall_mem_cons.1 hblank
    rw [List.cons_append, List.dropWhile_cons_of_neg (by simp [hc]), ← List.cons_append,
      dropEndWhile_append _ _ _ hback,
      dropEndWhile_of_getLast fun c hc => hblank c (List.mem_of_getLast? hc), ← hcs,
      String.ofList_toList]

theorem isBlankText_of_padded {text value : String} (h : Padded text value)
    (hword : IsWord text) : isBlankText value = false := by
  rw [isBlankText, trim_of_padded h hword, Bool.eq_false_iff]
  exact fun hempty => hword.ne_empty (String.isEmpty_iff.1 hempty)

/-- A text with a character that is not white space is not blank. -/
theorem isBlankText_of_mem {value : String} {c : Char} (hmem : c ∈ value.toList)
    (hc : isBlank c = false) : isBlankText value = false := by
  have hleft : c ∈ value.toList.dropWhile isBlank := by
    rw [← List.takeWhile_append_dropWhile (p := isBlank) (l := value.toList),
      List.mem_append] at hmem
    refine hmem.resolve_left fun htaken => ?_
    rw [List.mem_takeWhile_imp htaken] at hc
    cases hc
  rw [isBlankText, Bool.eq_false_iff]
  intro hempty
  have hnone : dropEndWhile isBlank (value.toList.dropWhile isBlank) = [] :=
    String.ofList_eq_empty_iff.1 (String.isEmpty_iff.1 hempty)
  rw [dropEndWhile, List.reverse_eq_nil_iff, List.dropWhile_eq_nil_iff] at hnone
  rw [hnone c (List.mem_reverse.2 hleft)] at hc
  cases hc

/-! ## Separators -/

theorem splitFirst?_append_cons {sep : Char} {a : List Char} (h : sep ∉ a) (b : List Char) :
    splitFirst? sep (a ++ sep :: b) = some (a, b) := by
  induction a with
  | nil => simp [splitFirst?]
  | cons c a ih =>
    rw [List.mem_cons, not_or] at h
    rw [List.cons_append, splitFirst?, if_neg fun hc => h.1 hc.symm, ih h.2]
    rfl

theorem splitLast?_append_cons {sep : Char} {b : List Char} (h : sep ∉ b) (a : List Char) :
    splitLast? sep (a ++ sep :: b) = some (a, b) := by
  have hreverse : (a ++ sep :: b).reverse = b.reverse ++ sep :: a.reverse := by simp
  rw [splitLast?, hreverse, splitFirst?_append_cons (by simpa using h)]
  simp

theorem splitLast?_of_not_mem {sep : Char} {cs : List Char} (h : sep ∉ cs) :
    splitLast? sep cs = none := by
  refine Option.eq_none_iff_forall_ne_some.2 fun (a, b) hsplit => h ?_
  rw [(splitLast?_eq_some hsplit).1]
  exact List.mem_append_right a List.mem_cons_self

theorem exists_last_of_mem {sep : Char} {cs : List Char} (h : sep ∈ cs) :
    ∃ a b, cs = a ++ sep :: b ∧ sep ∉ b := by
  obtain ⟨b, a, hreverse, hb⟩ := List.eq_append_cons_of_mem (List.mem_reverse.2 h)
  refine ⟨a.reverse, b.reverse, ?_, by simpa using hb⟩
  rw [← List.reverse_reverse cs, hreverse]
  simp

/-- Every character is a separator or stands in one of the parts between them. -/
theorem exists_mem_splitAll {p : Char → Bool} {cs : List Char} {c : Char} (h : c ∈ cs) :
    p c = true ∨ ∃ part ∈ splitAll p cs, c ∈ part := by
  induction cs with
  | nil => cases h
  | cons d cs ih =>
    rw [List.mem_cons] at h
    rw [splitAll]
    by_cases hd : p d = true
    · rw [if_pos hd]
      rcases h with rfl | h
      · exact .inl hd
      · obtain hc | ⟨part, hpart, hc⟩ := ih h
        · exact .inl hc
        · exact .inr ⟨part, List.mem_cons_of_mem _ hpart, hc⟩
    · rw [if_neg hd]
      obtain ⟨first, parts, hparts⟩ := List.exists_cons_of_ne_nil (splitAll_ne_nil p cs)
      rw [hparts] at ih ⊢
      rcases h with rfl | h
      · exact .inr ⟨c :: first, List.mem_cons_self, List.mem_cons_self⟩
      · obtain hc | ⟨part, hpart, hc⟩ := ih h
        · exact .inl hc
        · obtain rfl | hpart := List.mem_cons.1 hpart
          · exact .inr ⟨d :: part, List.mem_cons_self, List.mem_cons_of_mem _ hc⟩
          · exact .inr ⟨part, List.mem_cons_of_mem _ hpart, hc⟩

end NineP.Text
