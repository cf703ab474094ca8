import NineP.Error
import NineP.Text.Blank
import NineP.Text.Split

/-!
# Paths

A path is a text in which slashes and backslashes separate names. Its
components are the names between separators; empty ones and the name of the
directory itself are dropped. `Path.plan` turns a path into the names to walk,
and refuses one that climbs above the root.

* `isComponent_of_mem`: a component is a name without separators;
* `components_of_isName`: such a name is its own only component;
* `plan_names`: a plan's names are the path's components.
-/

namespace NineP.Path

def isSeparator (c : Char) : Bool := c == '/' || c == '\\'

/-- Whether a path starts at the root. -/
def isAbsolute (path : String) : Bool := path.toList.head?.any isSeparator

/-- Whether a part between separators is a name to walk. -/
def isName (part : List Char) : Bool := !part.isEmpty && part != ['.']

/-- The names that a path leads through. -/
def components (path : String) : List String :=
  ((Text.splitAll isSeparator path.toList).filter isName).map String.ofList

/-- The name of the parent directory. -/
def parent : String := ".."

/-- Whether names, walked from `depth` levels below the root, never climb above
it. -/
def staysBelow : (depth : Nat) → List String → Bool
  | _, [] => true
  | depth, name :: names =>
    if name = parent then
      match depth with
      | 0 => false
      | depth + 1 => staysBelow depth names
    else staysBelow (depth + 1) names

/-- Where a walk starts and the names it takes. -/
structure Plan where
  fromRoot : Bool
  names : List String
  deriving DecidableEq, Repr

/-- The walk that a path asks for. A path that starts at the root and climbs
above it leads nowhere; `startIsRoot` says whether a relative path starts
there. -/
def plan (path : String) (startIsRoot : Bool) : Except Error Plan :=
  let fromRoot := isAbsolute path
  let names := components path
  if (fromRoot || startIsRoot) && !staysBelow 0 names then .error (.server .notFound)
  else .ok { fromRoot, names }

/-- The path of `path` taken relative to `base`. -/
def join (base path : String) : String :=
  if isAbsolute path || base.isEmpty then path
  else String.ofList (Text.dropEndWhile isSeparator base.toList) ++ "/" ++ path

/-- The path of `path` taken from the root. -/
def absolute (path : String) : String := if isAbsolute path then path else "/" ++ path

/-- The last name of a path, separators at its end aside. -/
def fileName (path : String) : String :=
  let cs := Text.dropEndWhile isSeparator path.toList
  String.ofList (cs.reverse.takeWhile (!isSeparator ·)).reverse

theorem plan_names {path : String} {startIsRoot : Bool} {p : Plan}
    (h : plan path startIsRoot = .ok p) :
    p.names = components path ∧ p.fromRoot = isAbsolute path := by
  simp only [plan] at h
  split at h
  · cases h
  · cases h
    exact ⟨rfl, rfl⟩

theorem not_separator_of_mem {p : Char → Bool} {cs part : List Char}
    (h : part ∈ Text.splitAll p cs) : ∀ c ∈ part, p c = false := by
  induction cs generalizing part with
  | nil =>
    simp only [Text.splitAll, List.mem_singleton] at h
    subst h
    simp
  | cons d ds ih =>
    simp only [Text.splitAll] at h
    split at h
    · rcases List.mem_cons.1 h with rfl | h
      · simp
      · exact ih h
    · rename_i hd
      split at h
      · rename_i hn
        exact absurd hn (Text.splitAll_ne_nil p ds)
      · rename_i first rest hs
        rcases List.mem_cons.1 h with rfl | h
        · intro c hc
          rcases List.mem_cons.1 hc with rfl | hc
          · simpa using hd
          · exact ih (hs ▸ List.mem_cons_self) c hc
        · exact ih (hs ▸ List.mem_cons_of_mem _ h)

theorem isComponent_of_mem {path name : String} (h : name ∈ components path) :
    name ≠ "" ∧ name ≠ "." ∧ ∀ c ∈ name.toList, isSeparator c = false := by
  simp only [components, List.mem_map, List.mem_filter] at h
  obtain ⟨part, ⟨hmem, hname⟩, rfl⟩ := h
  simp only [isName, Bool.and_eq_true, Bool.not_eq_true', bne_iff_ne] at hname
  refine ⟨fun e => ?_, fun e => ?_, ?_⟩
  · have := congrArg String.toList e
    simp at this
    simp [this] at hname
  · have := congrArg String.toList e
    simp only [String.toList_ofList] at this
    exact hname.2 this
  · simpa using not_separator_of_mem hmem

/-- A name is a path of one component. -/
theorem components_of_isName {cs : List Char} (h : ∀ c ∈ cs, isSeparator c = false)
    (hn : isName cs = true) : components (String.ofList cs) = [String.ofList cs] := by
  rw [components, String.toList_ofList, Text.splitAll_of_forall h, List.filter_cons_of_pos hn]
  rfl

end NineP.Path
