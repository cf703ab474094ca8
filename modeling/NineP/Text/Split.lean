/-!
# Splitting texts

A row of characters cut at the characters that satisfy a test: at all of them,
at the first or at the last.

* `splitAll_ne_nil`: there is always a first part;
* `splitAll_of_forall`: there is no other without a separator;
* `splitAll_append_cons`: what is cut at a separator is cut on both sides of it;
* `splitFirst?_eq_some`, `splitLast?_eq_some`: the parts and the separator
  between them make up the whole.
-/

namespace NineP.Text

/-- The parts of a row between the characters that satisfy `p`. -/
def splitAll (p : Char → Bool) : List Char → List (List Char)
  | [] => [[]]
  | c :: cs =>
    if p c then [] :: splitAll p cs
    else
      match splitAll p cs with
      | [] => [[c]]
      | part :: parts => (c :: part) :: parts

/-- What stands before and after the first `sep`. -/
def splitFirst? (sep : Char) : List Char → Option (List Char × List Char)
  | [] => none
  | c :: cs => if c = sep then some ([], cs) else (splitFirst? sep cs).map fun (a, b) => (c :: a, b)

/-- What stands before and after the last `sep`. -/
def splitLast? (sep : Char) (cs : List Char) : Option (List Char × List Char) :=
  (splitFirst? sep cs.reverse).map fun (a, b) => (b.reverse, a.reverse)

theorem splitAll_ne_nil (p : Char → Bool) (cs : List Char) : splitAll p cs ≠ [] := by
  cases cs with
  | nil => simp [splitAll]
  | cons c cs =>
    simp only [splitAll]
    split
    · simp
    · split <;> simp

/-- A row without separators is one part. -/
theorem splitAll_of_forall {p : Char → Bool} {cs : List Char} (h : ∀ c ∈ cs, p c = false) :
    splitAll p cs = [cs] := by
  induction cs with
  | nil => rfl
  | cons c cs ih =>
    obtain ⟨hc, hcs⟩ := List.forall_mem_cons.1 h
    rw [splitAll, if_neg (by rw [hc]; exact Bool.false_ne_true), ih hcs]

/-- What stands on both sides of a separator is cut as if it stood alone. -/
theorem splitAll_append_cons {p : Char → Bool} {sep : Char} (hsep : p sep = true)
    (a b : List Char) : splitAll p (a ++ sep :: b) = splitAll p a ++ splitAll p b := by
  induction a with
  | nil => simp [splitAll, hsep]
  | cons c a ih =>
    rw [List.cons_append, splitAll, splitAll]
    by_cases hc : p c = true
    · simp only [hc, if_true, ih, List.cons_append]
    · simp only [hc, if_false, Bool.false_eq_true]
      -- There is a first part of what stands in front, and `c` belongs to it.
      obtain ⟨part, parts, hparts⟩ := List.exists_cons_of_ne_nil (splitAll_ne_nil p a)
      simp only [ih, hparts, List.cons_append]

theorem splitFirst?_eq_some {sep : Char} {cs a b : List Char}
    (h : splitFirst? sep cs = some (a, b)) : cs = a ++ sep :: b ∧ sep ∉ a := by
  induction cs generalizing a with
  | nil => simp [splitFirst?] at h
  | cons c cs ih =>
    simp only [splitFirst?] at h
    split at h
    · rename_i hc
      simp only [Option.some.injEq, Prod.mk.injEq] at h
      obtain ⟨rfl, rfl⟩ := h
      simp [hc]
    · rename_i hc
      simp only [Option.map_eq_some_iff, Prod.mk.injEq, Prod.exists] at h
      obtain ⟨a', b', h', rfl, rfl⟩ := h
      obtain ⟨rfl, hn⟩ := ih h'
      refine ⟨rfl, ?_⟩
      simp only [List.mem_cons, not_or]
      exact ⟨fun e => hc e.symm, hn⟩

theorem splitLast?_eq_some {sep : Char} {cs a b : List Char} (h : splitLast? sep cs = some (a, b)) :
    cs = a ++ sep :: b ∧ sep ∉ b := by
  simp only [splitLast?, Option.map_eq_some_iff, Prod.mk.injEq, Prod.exists] at h
  obtain ⟨x, y, h', rfl, rfl⟩ := h
  obtain ⟨hr, hn⟩ := splitFirst?_eq_some h'
  have := congrArg List.reverse hr
  simp only [List.reverse_reverse, List.reverse_append, List.reverse_cons,
    List.append_assoc] at this
  exact ⟨by simpa using this, by simpa using hn⟩

end NineP.Text
