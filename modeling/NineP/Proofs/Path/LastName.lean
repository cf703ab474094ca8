import NineP.Proofs.Path.Names

/-!
# The last name of a path

A file is shown by the last part of its path that is not empty. That is the last name
of the path's plan, unless the path ends in the name of the directory itself
(`Path.EndsInDot`), which is no name to walk:

* `Path.exists_lastPart`: a path is what stands in front of its last part, that part and
  separators;
* `Path.fileName_of_endsInDot`, `Path.fileName_of_not_endsInDot`: which part is shown;
* `Path.endsInDot_absolute`: a path does not end otherwise when it is taken from the root.
-/

namespace NineP.Path

/-- A path whose last part, separators behind it aside, stands for the directory itself. -/
def EndsInDot (path : String) : Prop :=
  ∃ front seps, path.toList = front ++ '.' :: seps ∧ (∀ c ∈ seps, isSeparator c = true) ∧
    ∀ c ∈ front.getLast?, isSeparator c = true

/-- The characters in front of a row's last part end in a separator, if there are any. -/
theorem exists_takeWhile (cs : List Char) :
    ∃ front, cs = front ++ (cs.reverse.takeWhile (!isSeparator ·)).reverse ∧
      ∀ c ∈ front.getLast?, isSeparator c = true := by
  refine ⟨(cs.reverse.dropWhile (!isSeparator ·)).reverse, ?_, fun c hc => ?_⟩
  · rw [← List.reverse_append, List.takeWhile_append_dropWhile, List.reverse_reverse]
  · rw [List.getLast?_reverse] at hc
    have hhead := List.head?_dropWhile_not (!isSeparator ·) cs.reverse
    rw [Option.mem_def] at hc
    simpa [hc] using hhead

/-- A path's last part, what stands in front of it, and the separators behind. -/
theorem exists_lastPart (path : String) :
    ∃ front part seps, path.toList = front ++ part ++ seps ∧
      (∀ c ∈ seps, isSeparator c = true) ∧ (∀ c ∈ part, isSeparator c = false) ∧
      (∀ c ∈ front.getLast?, isSeparator c = true) ∧ (part = [] → front = []) ∧
      fileName path = String.ofList part := by
  obtain ⟨seps, hpath, hseps⟩ := exists_dropEndWhile isSeparator path.toList
  generalize hcs : Text.dropEndWhile isSeparator path.toList = cs at hpath
  obtain ⟨front, hfront, hlast⟩ := exists_takeWhile cs
  have hname : fileName path =
      String.ofList (cs.reverse.takeWhile (!isSeparator ·)).reverse := by
    rw [← hcs]
    rfl
  generalize hpart : (cs.reverse.takeWhile (!isSeparator ·)).reverse = part at hfront hname
  refine ⟨front, part, seps, hfront ▸ hpath, hseps, fun c hc => ?_, hlast, fun hempty => ?_, hname⟩
  · rw [← hpart, List.mem_reverse] at hc
    simpa using List.all_eq_true.1 List.all_takeWhile c hc
  · -- No separator is left at the end, so that nothing stands in front of an empty part.
    subst hempty
    rw [List.append_nil] at hfront
    subst hfront
    have hend : ∀ c ∈ cs.getLast?, isSeparator c = false := by
      intro c hc
      rw [← hcs, Text.dropEndWhile, List.getLast?_reverse, Option.mem_def] at hc
      have hhead := List.head?_dropWhile_not isSeparator path.toList.reverse
      simpa [hc] using hhead
    cases hc : cs.getLast? with
    | none => exact List.getLast?_eq_none_iff.1 hc
    | some c =>
      have := (hlast c hc).symm.trans (hend c hc)
      cases this

theorem fileName_of_endsInDot {path : String} (h : EndsInDot path) : fileName path = "." := by
  obtain ⟨front, seps, hpath, hseps, hfront⟩ := h
  have hdrop : Text.dropEndWhile isSeparator path.toList = front ++ ['.'] := by
    rw [hpath, List.append_cons, Text.dropEndWhile_append isSeparator _ seps hseps]
    exact Text.dropEndWhile_of_getLast (by simp [isSeparator])
  have htake : front.reverse.takeWhile (!isSeparator ·) = [] := by
    cases hrev : front.reverse with
    | nil => rfl
    | cons c cs =>
      have hlast : front.getLast? = some c := by
        rw [← List.head?_reverse, hrev]
        rfl
      simp [hfront c hlast]
  have hdot : isSeparator '.' = false := rfl
  simp [fileName, hdrop, htake, hdot]

/-- A part is one name, or none if it is empty or stands for the directory itself. -/
theorem components_of_part {part : List Char} (h : ∀ c ∈ part, isSeparator c = false) :
    components (String.ofList part) = if isName part = true then [String.ofList part] else [] := by
  by_cases hn : isName part = true
  · rw [if_pos hn, components_of_isName h hn]
  · rw [if_neg hn, components, String.toList_ofList, Text.splitAll_of_forall h,
      List.filter_cons_of_neg hn]
    rfl

/-- The names of a path whose last part is a name end in it. -/
theorem components_lastPart {path : String} {front part seps : List Char}
    (hpath : path.toList = front ++ part ++ seps) (hseps : ∀ c ∈ seps, isSeparator c = true)
    (hfront : ∀ c ∈ front.getLast?, isSeparator c = true) :
    ∃ names, components path = names ++ components (String.ofList part) ∧
      (front = [] → names = []) := by
  have hnames : components path = components (String.ofList (front ++ part)) := by
    rw [← components_append_separators _ hseps, ← hpath, String.ofList_toList]
  rw [hnames]
  rcases List.eq_nil_or_concat front with rfl | ⟨before, sep, rfl⟩
  · exact ⟨[], rfl, fun _ => rfl⟩
  · have hsep : isSeparator sep = true := hfront sep (by simp)
    have htext : String.ofList (before.concat sep ++ part) =
        String.ofList before ++ String.singleton sep ++ String.ofList part := by
      apply String.toList_inj.1
      simp
    rw [htext, components_append hsep]
    exact ⟨_, rfl, by simp⟩

theorem fileName_of_not_endsInDot {path : String} (h : ¬ EndsInDot path) :
    fileName path = (components path).getLast?.getD "" := by
  obtain ⟨front, part, seps, hpath, hseps, hpart, hfront, hempty, hname⟩ := exists_lastPart path
  obtain ⟨names, hnames, hnone⟩ := components_lastPart hpath hseps hfront
  rw [hname, hnames, components_of_part hpart]
  by_cases hn : isName part = true
  · simp [hn]
  · have hor : part = [] ∨ part = ['.'] := by
      by_cases hempty : part = []
      · exact .inl hempty
      · exact .inr (by simpa [isName, hempty] using hn)
    rcases hor with rfl | rfl
    · rw [hnone (hempty rfl)]
      rfl
    · exact absurd ⟨front, seps, by simpa using hpath, hseps, hfront⟩ h

/-- A path does not end otherwise when it is taken from the root. -/
theorem endsInDot_absolute {path : String} : EndsInDot (absolute path) ↔ EndsInDot path := by
  rw [absolute]
  split
  · rfl
  have htext : ("/" ++ path).toList = '/' :: path.toList := by simp
  constructor
  · rintro ⟨front, seps, hpath, hseps, hfront⟩
    rw [htext] at hpath
    cases front with
    | nil => simp at hpath
    | cons c front =>
      obtain ⟨-, hpath⟩ := List.cons.inj hpath
      refine ⟨front, seps, hpath, hseps, fun c' hc' => hfront c' ?_⟩
      rw [Option.mem_def] at hc' ⊢
      rw [List.getLast?_cons, hc']
      rfl
  · rintro ⟨front, seps, hpath, hseps, hfront⟩
    refine ⟨'/' :: front, seps, by rw [htext, hpath]; rfl, hseps, fun c hc => ?_⟩
    rw [List.getLast?_cons, Option.mem_def, Option.some.injEq] at hc
    cases hlast : front.getLast? with
    | none => simp [← hc, hlast, isSeparator]
    | some last =>
      rw [hlast] at hc
      exact hc ▸ hfront last hlast

end NineP.Path
