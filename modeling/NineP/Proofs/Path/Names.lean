import NineP.Path

/-!
# The names of a path

A path is a row of parts with a separator between any two of them. Its names are the
parts that are not empty and do not stand for the directory itself. Which they are is
said without cutting the path (`Path.Parted`), and so is which paths climb above their
start: those of which some beginning has more names that lead up than others
(`Path.Climbs`).

* `Path.names_iff`: every path has exactly one list of names, its components;
* `Path.staysBelow_eq_false_iff`: a walk of names leaves the tree above its start if a
  beginning of it does;
* `Path.components_join`: the names of a path that is taken from another one;
* `Path.plan_names_iff`: which paths are planned, and with which names.
-/

namespace NineP

namespace Path

/-! ## Parts and names -/

/-- A row of characters, and its parts between the separators in it. -/
inductive Parted : List Char → List (List Char) → Prop where
  | last {part : List Char} : (∀ c ∈ part, isSeparator c = false) → Parted part [part]
  | cut {part rest : List Char} {sep : Char} {parts : List (List Char)} :
    (∀ c ∈ part, isSeparator c = false) → isSeparator sep = true → Parted rest parts →
    Parted (part ++ sep :: rest) (part :: parts)

/-- One more character in front belongs to the first part. -/
theorem Parted.cons {cs part : List Char} {parts : List (List Char)} {c : Char}
    (hc : isSeparator c = false) (h : Parted cs (part :: parts)) :
    Parted (c :: cs) ((c :: part) :: parts) := by
  cases h with
  | last hpart => exact .last (List.forall_mem_cons.2 ⟨hc, hpart⟩)
  | cut hpart hsep hrest => exact .cut (List.forall_mem_cons.2 ⟨hc, hpart⟩) hsep hrest

theorem parted_splitAll (cs : List Char) : Parted cs (Text.splitAll isSeparator cs) := by
  induction cs with
  | nil => exact .last (by simp)
  | cons c cs ih =>
    rw [Text.splitAll]
    by_cases hc : isSeparator c = true
    · rw [if_pos hc]
      have hempty : ∀ c ∈ ([] : List Char), isSeparator c = false := by simp
      exact .cut hempty hc ih
    · rw [if_neg hc]
      obtain ⟨part, parts, hparts⟩ :=
        List.exists_cons_of_ne_nil (Text.splitAll_ne_nil isSeparator cs)
      rw [hparts] at ih ⊢
      exact ih.cons (Bool.not_eq_true _ ▸ hc)

theorem Parted.eq_splitAll {cs : List Char} {parts : List (List Char)} (h : Parted cs parts) :
    parts = Text.splitAll isSeparator cs := by
  induction h with
  | last hpart => rw [Text.splitAll_of_forall hpart]
  | cut hpart hsep _ ih =>
    rw [Text.splitAll_append_cons hsep, Text.splitAll_of_forall hpart, ← ih, List.singleton_append]

/-- The names of a path: its parts in their order, less the empty ones and those that
stand for the directory itself. -/
def Names (path : String) (names : List String) : Prop :=
  ∃ parts, Parted path.toList parts ∧
    names = (parts.filter fun part => part ≠ [] ∧ part ≠ ['.']).map String.ofList

/-- Every path has its components as its names, and no others. -/
theorem names_iff {path : String} {names : List String} :
    Names path names ↔ names = components path := by
  have hfilter : (fun part : List Char => decide (part ≠ [] ∧ part ≠ ['.'])) = isName := by
    funext part
    by_cases hempty : part = [] <;> by_cases hdot : part = ['.'] <;> simp [isName, hempty, hdot]
  constructor
  · rintro ⟨parts, hparts, rfl⟩
    rw [hparts.eq_splitAll, hfilter, components]
  · rintro rfl
    exact ⟨_, parted_splitAll _, by rw [hfilter, components]⟩

/-! ## Names that climb -/

/-- Some beginning of the names has more that lead up than others. -/
def Climbs (names : List String) : Prop :=
  ∃ front, front <+: names ∧ front.countP (· ≠ parent) < front.count parent

theorem staysBelow_eq_false_iff {depth : Nat} {names : List String} :
    staysBelow depth names = false ↔
      ∃ front, front <+: names ∧ depth + front.countP (· ≠ parent) < front.count parent := by
  induction names generalizing depth with
  | nil => simp [staysBelow]
  | cons name names ih =>
    rw [staysBelow.eq_def]
    by_cases hup : name = parent
    · cases depth with
      | zero =>
        simp only [hup, if_true, true_iff]
        exact ⟨[parent], by simp, by simp⟩
      | succ depth =>
        simp only [hup, if_true, ih, List.prefix_cons_iff]
        constructor
        · rintro ⟨front, hfront, hless⟩
          exact ⟨parent :: front, .inr ⟨front, rfl, hfront⟩, by simp at hless ⊢; omega⟩
        · rintro ⟨_, rfl | ⟨front, rfl, hfront⟩, hless⟩
          · simp at hless
          · exact ⟨front, hfront, by simp at hless ⊢; omega⟩
    · simp only [hup, if_false, ih, List.prefix_cons_iff]
      constructor
      · rintro ⟨front, hfront, hless⟩
        refine ⟨name :: front, .inr ⟨front, rfl, hfront⟩, ?_⟩
        simp [hup] at hless ⊢
        omega
      · rintro ⟨_, rfl | ⟨front, rfl, hfront⟩, hless⟩
        · simp at hless
        · refine ⟨front, hfront, ?_⟩
          simp [hup] at hless ⊢
          omega

theorem climbs_iff {names : List String} : Climbs names ↔ staysBelow 0 names = false := by
  simp [staysBelow_eq_false_iff, Climbs]

/-- A beginning of two rows of names lies in the first or goes through all of it. -/
theorem not_climbs_append {front back : List String} (hfront : ¬ Climbs front)
    (hback : ¬ Climbs back) : ¬ Climbs (front ++ back) := by
  rintro ⟨names, hnames, hless⟩
  rcases List.prefix_or_prefix_of_prefix hnames (List.prefix_append front back) with h | ⟨more, rfl⟩
  · exact hfront ⟨names, h, hless⟩
  · have hmore : more <+: back := (List.prefix_append_right_inj front).1 hnames
    have hall : ¬ front.countP (· ≠ parent) < front.count parent := fun h =>
      hfront ⟨front, List.prefix_rfl, h⟩
    have hrest : ¬ more.countP (· ≠ parent) < more.count parent := fun h => hback ⟨more, hmore, h⟩
    rw [List.countP_append, List.count_append] at hless
    omega

/-! ## Paths that are taken from others -/

theorem components_append {sep : Char} (hsep : isSeparator sep = true) (base path : String) :
    components (base ++ String.singleton sep ++ path) = components base ++ components path := by
  have htext : (base ++ String.singleton sep ++ path).toList =
      base.toList ++ sep :: path.toList := by
    simp
  simp only [components, htext, Text.splitAll_append_cons hsep, List.filter_append,
    List.map_append]

/-- Separators at the end add no names. -/
theorem components_append_separators (cs : List Char) {seps : List Char}
    (h : ∀ c ∈ seps, isSeparator c = true) :
    components (String.ofList (cs ++ seps)) = components (String.ofList cs) := by
  induction seps generalizing cs with
  | nil => rw [List.append_nil]
  | cons sep seps ih =>
    obtain ⟨hsep, hseps⟩ := List.forall_mem_cons.1 h
    have hcut : String.ofList (cs ++ [sep]) =
        String.ofList cs ++ String.singleton sep ++ "" := by
      apply String.toList_inj.1
      simp
    rw [List.append_cons, ih _ hseps, hcut, components_append hsep]
    exact List.append_nil _

/-- A row is what is left of it and the characters at its end that were dropped. -/
theorem exists_dropEndWhile (p : Char → Bool) (cs : List Char) :
    ∃ dropped, cs = Text.dropEndWhile p cs ++ dropped ∧ ∀ c ∈ dropped, p c = true := by
  refine ⟨(cs.reverse.takeWhile p).reverse, ?_, fun c hc => ?_⟩
  · rw [Text.dropEndWhile, ← List.reverse_append, List.takeWhile_append_dropWhile,
      List.reverse_reverse]
  · exact List.all_eq_true.1 List.all_takeWhile c (List.mem_reverse.1 hc)

theorem components_dropEndWhile (cs : List Char) :
    components (String.ofList (Text.dropEndWhile isSeparator cs)) =
      components (String.ofList cs) := by
  obtain ⟨seps, hcs, hseps⟩ := exists_dropEndWhile isSeparator cs
  conv => rhs; rw [hcs]
  exact (components_append_separators _ hseps).symm

/-- The names of a path that is taken from another one stand behind its names, unless
the path is absolute. -/
theorem components_join (base path : String) :
    components (join base path) =
      if isAbsolute path then components path else components base ++ components path := by
  rw [join]
  by_cases ha : isAbsolute path = true
  · simp [ha]
  by_cases hb : base = ""
  · subst hb
    simp only [ha, if_false, Bool.false_eq_true]
    rfl
  · have hslash : isSeparator '/' = true := rfl
    have happend := components_append hslash
      (String.ofList (Text.dropEndWhile isSeparator base.toList)) path
    rw [components_dropEndWhile, String.ofList_toList] at happend
    simp only [ha, hb, Bool.false_or, String.isEmpty_iff, if_false, Bool.false_eq_true]
    exact happend

/-- What stands in front of a slash may be dropped from the end of an absolute path, or
all of it. -/
theorem isAbsolute_append {front : String} (h : front = "" ∨ isAbsolute front = true)
    (path : String) : isAbsolute (front ++ "/" ++ path) = true := by
  have htext : (front ++ "/" ++ path).toList = front.toList ++ '/' :: path.toList := by simp
  rw [isAbsolute, htext]
  rcases h with rfl | h
  · rfl
  · rw [isAbsolute] at h
    cases hcs : front.toList with
    | nil => simp [hcs] at h
    | cons c cs => simpa [hcs] using h

/-- A path that is taken from an absolute one is absolute. -/
theorem isAbsolute_join {base : String} (h : isAbsolute base = true) (path : String) :
    isAbsolute (join base path) = true := by
  rw [join]
  split
  · rename_i hor
    rcases (Bool.or_eq_true ..).mp hor with ha | hb
    · exact ha
    · rw [String.isEmpty_iff.1 hb] at h
      exact absurd h (by decide)
  · refine isAbsolute_append ?_ path
    obtain ⟨seps, hbase, -⟩ := exists_dropEndWhile isSeparator base.toList
    cases hfront : Text.dropEndWhile isSeparator base.toList with
    | nil => exact .inl rfl
    | cons c cs =>
      rw [isAbsolute, hbase, hfront] at h
      exact .inr (by simpa [isAbsolute] using h)

theorem isAbsolute_absolute (path : String) : isAbsolute (absolute path) = true := by
  rw [absolute]
  split
  · assumption
  · have h : isAbsolute ("" ++ "/" ++ path) = true := isAbsolute_append (.inl rfl) path
    rwa [String.empty_append] at h

theorem components_absolute (path : String) : components (absolute path) = components path := by
  rw [absolute]
  split
  · rfl
  · have hslash : isSeparator '/' = true := rfl
    have h := components_append hslash "" path
    rwa [String.empty_append] at h

/-! ## Plans -/

/-- Whether a path is walked from the root. -/
def Rooted (path : String) (startIsRoot : Bool) : Prop :=
  isAbsolute path = true ∨ startIsRoot = true

theorem plan_of_climbs {path : String} {startIsRoot : Bool} (hr : Rooted path startIsRoot)
    (hc : Climbs (components path)) : plan path startIsRoot = .error (.server .notFound) := by
  have hroot : (isAbsolute path || startIsRoot) = true := (Bool.or_eq_true ..).mpr hr
  simp [plan, hroot, climbs_iff.1 hc]

theorem plan_of_not_climbs {path : String} {startIsRoot : Bool}
    (h : ¬ (Rooted path startIsRoot ∧ Climbs (components path))) :
    plan path startIsRoot = .ok { fromRoot := isAbsolute path, names := components path } := by
  have hcond : ((isAbsolute path || startIsRoot) && !staysBelow 0 (components path)) = false := by
    rw [Bool.eq_false_iff]
    intro hboth
    rw [Bool.and_eq_true, Bool.or_eq_true, Bool.not_eq_true'] at hboth
    exact h ⟨hboth.1, climbs_iff.2 hboth.2⟩
  simp [plan, hcond]

/-- A path is planned exactly if it does not climb above the root. -/
theorem plan_eq_ok_iff {path : String} {startIsRoot : Bool} {plan' : Plan} :
    plan path startIsRoot = .ok plan' ↔
      plan' = { fromRoot := isAbsolute path, names := components path } ∧
        ¬ (Rooted path startIsRoot ∧ Climbs (components path)) := by
  by_cases h : Rooted path startIsRoot ∧ Climbs (components path)
  · simp [plan_of_climbs h.1 h.2, h]
  · simp [plan_of_not_climbs h, h, eq_comm]

/-- Two paths with a separator between them are planned if the second one may be walked
from the root. -/
theorem exists_plan_append {sep : Char} (hsep : isSeparator sep = true) {base path : String}
    {startIsRoot : Bool} {first second : Plan} (hfirst : plan base startIsRoot = .ok first)
    (hsecond : plan path true = .ok second) :
    ∃ both, plan (base ++ String.singleton sep ++ path) startIsRoot = .ok both := by
  obtain ⟨-, hbase⟩ := plan_eq_ok_iff.1 hfirst
  obtain ⟨-, hpath⟩ := plan_eq_ok_iff.1 hsecond
  refine ⟨_, plan_of_not_climbs ?_⟩
  rintro ⟨hrooted, hclimbs⟩
  rw [components_append hsep] at hclimbs
  refine not_climbs_append (fun hc => ?_) (fun hc => hpath ⟨.inr rfl, hc⟩) hclimbs
  by_cases hempty : base = ""
  · -- There are no names in front, and none of them climb.
    subst hempty
    exact absurd (climbs_iff.1 hc) (by decide)
  · refine hbase ⟨hrooted.imp_left fun ha => ?_, hc⟩
    have htext : (base ++ String.singleton sep ++ path).toList =
        base.toList ++ sep :: path.toList := by simp
    rw [isAbsolute, htext] at ha
    cases hcs : base.toList with
    | nil => exact absurd (String.toList_eq_nil_iff.1 hcs) hempty
    | cons c cs => simpa [isAbsolute, hcs] using ha

/-- A path has exactly one list of names. It is planned, with these names and from the
root if it starts with a separator, unless it is walked from the root and a beginning of
its names has more that lead up than others; then it is not found. The names of two
paths with a separator between them are those of the first and then those of the second,
and such a path is planned if the first one is and the second one from the root. -/
theorem plan_names_iff (path : String) (startIsRoot : Bool) :
    (isAbsolute path = true ↔ ∃ c cs, path.toList = c :: cs ∧ (c = '/' ∨ c = '\\')) ∧
    ∃ names, Names path names ∧ (∀ others, Names path others → others = names) ∧
      (plan path startIsRoot = .error (.server .notFound) ↔
        Rooted path startIsRoot ∧ Climbs names) ∧
      (¬ (Rooted path startIsRoot ∧ Climbs names) →
        plan path startIsRoot = .ok { fromRoot := isAbsolute path, names }) ∧
      (∀ name ∈ names, name ≠ "" ∧ name ≠ "." ∧ '/' ∉ name.toList ∧ '\\' ∉ name.toList) ∧
      ∀ (other : String) (sep : Char), sep = '/' ∨ sep = '\\' →
        (∀ (b b' : Bool) (first second both : Plan), plan path startIsRoot = .ok first →
          plan other b = .ok second →
          plan (path ++ String.singleton sep ++ other) b' = .ok both →
          both.names = first.names ++ second.names) ∧
        ∀ first second : Plan, plan path startIsRoot = .ok first → plan other true = .ok second →
          ∃ both, plan (path ++ String.singleton sep ++ other) startIsRoot = .ok both := by
  refine ⟨?_, components path, names_iff.2 rfl, fun others => names_iff.1, ⟨fun h => ?_, ?_⟩,
    plan_of_not_climbs, fun name hname => ?_, fun other sep hsep => ⟨?_, ?_⟩⟩
  · cases hcs : path.toList <;> simp [isAbsolute, hcs, isSeparator]
  · refine Classical.not_not.1 fun hnot => ?_
    rw [plan_of_not_climbs hnot] at h
    cases h
  · exact fun h => plan_of_climbs h.1 h.2
  · obtain ⟨hempty, hdot, hseps⟩ := isComponent_of_mem hname
    exact ⟨hempty, hdot, fun h => absurd (hseps _ h) (by decide),
      fun h => absurd (hseps _ h) (by decide)⟩
  all_goals have hsep : isSeparator sep = true := by simpa [isSeparator] using hsep
  · intro b b' first second both hfirst hsecond hboth
    obtain ⟨rfl, -⟩ := plan_eq_ok_iff.1 hfirst
    obtain ⟨rfl, -⟩ := plan_eq_ok_iff.1 hsecond
    obtain ⟨rfl, -⟩ := plan_eq_ok_iff.1 hboth
    exact components_append hsep path other
  · exact fun first second hfirst hsecond => exists_plan_append hsep hfirst hsecond

/-- A path with repeated separators and one that leads up, with a backslash between
them. -/
theorem plan_names_iff_repeated :
    plan "/a/./b//c/" false = .ok ⟨true, ["a", "b", "c"]⟩ ∧
      plan "../x" false = .ok ⟨false, ["..", "x"]⟩ ∧
      ∃ both, plan ("/a/./b//c/" ++ String.singleton '\\' ++ "../x") true = .ok both ∧
        both.names = ["a", "b", "c", "..", "x"] := by
  have planned {path : String} {startIsRoot : Bool} (h : staysBelow 0 (components path) = true) :
      plan path startIsRoot = .ok ⟨isAbsolute path, components path⟩ :=
    plan_of_not_climbs fun hc => by simp [climbs_iff.1 hc.2] at h
  have hfirst : plan "/a/./b//c/" false = .ok ⟨true, ["a", "b", "c"]⟩ :=
    planned (by decide +kernel)
  have hstart : isAbsolute "../x" = false := by decide +kernel
  have hsecond : plan "../x" false = .ok ⟨false, ["..", "x"]⟩ :=
    plan_of_not_climbs (by simp [Rooted, hstart])
  have hboth : plan ("/a/./b//c/" ++ String.singleton '\\' ++ "../x") true =
      .ok ⟨true, ["a", "b", "c", "..", "x"]⟩ := planned (by decide +kernel)
  obtain ⟨-, names, -, -, -, -, -, hjoined⟩ := plan_names_iff "/a/./b//c/" false
  obtain ⟨hnames, -⟩ := hjoined "../x" '\\' (.inr rfl)
  exact ⟨hfirst, hsecond, _, hboth, hnames false true _ _ _ hfirst hsecond hboth⟩

end Path

end NineP
