import NineP.Proofs.Address.Written

/-!
# Literal addresses in dial strings

A literal between exclamation marks is read as the address that it stands for, and a literal
of version 4 without a port gets the default port. A literal of version 6 has colons of its
own. What stands behind the last of them is taken for a port, so that the literal without its
last group is the host, if that is a literal, too. It is one exactly if two colons in a row
stand somewhere in front of the last two groups:

* `IPv6.not_mem_of_parse?`: the characters of a literal;
* `IPv6.groups?_of_parse?`, `IPv6.sides_of_parse?`: literals without and with two colons in a
  row;
* `IPv6.splitGap?_of_parse?`: there is only one such place in a literal;
* `IPv6.exists_parse?_of_endsInPort`, `IPv6.endsInPort_of_parse?`: when what stands in front of
  the last colon is a literal, too;
* `parseDialBy_literal`: what every literal is read as;
* `not_parseDial_literal`: a literal that is read as another address.
-/

namespace NineP

/-! ## Characters -/

namespace IPv4

variable {cs : List Char} {c : Char}

theorem digit?_isSome_of_octet? {n : Nat} (h : octet? cs = some n) :
    ∀ c ∈ cs, (Text.digit? 10 c).isSome = true := by
  rw [octet?] at h
  split at h
  · cases h
  · split at h
    · cases h
    · obtain ⟨hread, -⟩ := Option.filter_eq_some_iff.1 h
      exact Text.digit?_isSome_of_readDigits? hread

/-- There are digits and dots in an address of version 4, and nothing else. -/
theorem digit_of_ofChars? {a : IPv4} (h : ofChars? cs = some a) (hc : c ∈ cs) :
    c = '.' ∨ (Text.digit? 10 c).isSome = true := by
  refine (Text.exists_mem_splitAll (p := (· = '.')) hc).imp of_decide_eq_true ?_
  rintro ⟨part, hpart, hc⟩
  rw [ofChars?] at h
  split at h
  · rename_i w x y z hparts
    have hmem := List.mem_map_of_mem (f := octet?) hpart
    rw [hparts] at hmem
    have hsome : ∃ n, octet? part = some n := by
      simp only [List.mem_cons, List.not_mem_nil, or_false] at hmem
      rcases hmem with h | h | h | h
      · exact ⟨w, h⟩
      · exact ⟨x, h⟩
      · exact ⟨y, h⟩
      · exact ⟨z, h⟩
    obtain ⟨n, hn⟩ := hsome
    exact digit?_isSome_of_octet? hn c hc
  · cases h

/-- There are dots in every address of version 4. -/
theorem ofChars?_of_not_mem (h : '.' ∉ cs) : ofChars? cs = none := by
  have hone : Text.splitAll (· = '.') cs = [cs] :=
    Text.splitAll_of_forall fun c hc => decide_eq_false fun hdot => h (hdot ▸ hc)
  rw [ofChars?, hone, List.map_singleton]
  cases octet? cs with
  | none => rfl
  | some n => rfl

theorem not_mem_of_parse? {a : IPv4} {s : String} (h : parse? s = some a) (hdot : c ≠ '.')
    (hdigit : Text.digit? 10 c = none) : c ∉ s.toList := fun hc => by
  rcases digit_of_ofChars? h hc with hdot' | hsome
  · exact hdot hdot'
  · rw [hdigit] at hsome
    cases hsome

theorem parse?_of_colon {s : String} (h : ':' ∈ s.toList) : parse? s = none :=
  Option.eq_none_iff_forall_ne_some.2 fun _ ha => not_mem_of_parse? ha (by decide) rfl h

end IPv4

namespace IPv6

variable {parts : List (List Char)} {part cs front back : List Char} {gs : List UInt16}

/-- The groups between colons. -/
abbrev colonParts (cs : List Char) : List (List Char) := Text.splitAll (· = ':') cs

theorem colonParts_append_cons (cs rest : List Char) :
    colonParts (cs ++ ':' :: rest) = colonParts cs ++ colonParts rest :=
  Text.splitAll_append_cons rfl cs rest

theorem colonParts_of_not_mem (h : ':' ∉ cs) : colonParts cs = [cs] :=
  Text.splitAll_of_forall fun _ hc => decide_eq_false fun hcolon => h (hcolon ▸ hc)

/-! ## Groups -/

theorem groups?_cons_of_ne_nil (h : parts ≠ []) (hgs : groups? (part :: parts) = some gs) :
    ∃ g rest, group? part = some g ∧ groups? parts = some rest ∧ gs = g :: rest := by
  obtain ⟨next, parts, rfl⟩ := List.exists_cons_of_ne_nil h
  simp only [groups?, Option.bind_eq_bind, Option.bind_eq_some_iff] at hgs
  obtain ⟨g, hg, rest, hrest, heq⟩ := hgs
  exact ⟨g, rest, hg, hrest, (Option.some.inj heq).symm⟩

theorem groups?_cons {g : UInt16} (hg : group? part = some g) (hgs : groups? parts = some gs) :
    groups? (part :: parts) = some (g :: gs) := by
  cases parts with
  | nil =>
    cases hgs
    simp only [groups?, hg]
  | cons next parts =>
    simp only [groups?, hg, hgs, Option.bind_eq_bind, Option.bind_some]
    rfl

theorem groups?_singleton (hgs : groups? [part] = some gs) :
    (∃ g, group? part = some g ∧ gs = [g]) ∨ ∃ a, IPv4.ofChars? part = some a ∧ gs.length = 2 := by
  rw [groups?] at hgs
  split at hgs
  · rename_i g hg
    exact .inl ⟨g, hg, (Option.some.inj hgs).symm⟩
  · obtain ⟨a, ha, heq⟩ := Option.bind_eq_some_iff.1 hgs
    obtain rfl := Option.some.inj heq
    exact .inr ⟨a, ha, rfl⟩

/-- Every part is a group or an address of version 4. -/
theorem isSome_of_groups? (hgs : groups? parts = some gs) (hpart : part ∈ parts) :
    (∃ g, group? part = some g) ∨ ∃ a, IPv4.ofChars? part = some a := by
  induction parts generalizing gs with
  | nil => cases hpart
  | cons first parts ih =>
    by_cases hnil : parts = []
    · subst hnil
      obtain rfl := List.mem_singleton.1 hpart
      exact (groups?_singleton hgs).imp (fun ⟨g, hg, _⟩ => ⟨g, hg⟩) fun ⟨a, ha, _⟩ => ⟨a, ha⟩
    · obtain ⟨g, rest, hg, hrest, -⟩ := groups?_cons_of_ne_nil hnil hgs
      obtain rfl | hpart := List.mem_cons.1 hpart
      · exact .inl ⟨g, hg⟩
      · exact ih hrest hpart

theorem nil_not_mem_of_groups? (hgs : groups? parts = some gs) : [] ∉ parts := fun hnil => by
  obtain ⟨g, hg⟩ | ⟨a, ha⟩ := isSome_of_groups? hgs hnil
  · cases hg
  · rw [IPv4.ofChars?_of_not_mem List.not_mem_nil] at ha
    cases ha

/-- An address of version 4 in place of the last two groups makes the only difference. -/
theorem length_le_of_groups? (hgs : groups? parts = some gs) : gs.length ≤ parts.length + 1 := by
  induction parts generalizing gs with
  | nil =>
    cases hgs
    exact Nat.zero_le _
  | cons first parts ih =>
    by_cases hnil : parts = []
    · subst hnil
      obtain ⟨g, -, rfl⟩ | ⟨a, -, hlength⟩ := groups?_singleton hgs
      · exact Nat.le_succ 1
      · exact Nat.le_of_eq hlength
    · obtain ⟨g, rest, -, hrest, rfl⟩ := groups?_cons_of_ne_nil hnil hgs
      exact Nat.succ_le_succ (ih hrest)

/-- Without an address of version 4 at the end, the last part is the last group. -/
theorem groups?_concat (hgs : groups? (parts ++ [part]) = some gs)
    (hpart : IPv4.ofChars? part = none) :
    ∃ g rest, groups? parts = some rest ∧ gs = rest ++ [g] := by
  induction parts generalizing gs with
  | nil =>
    obtain ⟨g, -, rfl⟩ | ⟨a, ha, -⟩ := groups?_singleton hgs
    · exact ⟨g, [], rfl, rfl⟩
    · rw [hpart] at ha
      cases ha
  | cons first parts ih =>
    obtain ⟨g, rest, hg, hrest, rfl⟩ := groups?_cons_of_ne_nil (by simp) hgs
    obtain ⟨h, rest, hinit, rfl⟩ := ih hrest
    exact ⟨h, g :: rest, groups?_cons hg hinit, rfl⟩

theorem digit?_isSome_of_group? {g : UInt16} (hg : group? part = some g) :
    ∀ c ∈ part, (Text.digit? 16 c).isSome = true := by
  rw [group?] at hg
  split at hg
  · cases hg
  · obtain ⟨n, hread, -⟩ := Option.map_eq_some_iff.1 hg
    exact Text.digit?_isSome_of_readDigits? hread

/-- The characters of groups between colons. -/
theorem digit_of_groups? (hgs : groups? (colonParts cs) = some gs) {c : Char} (hc : c ∈ cs) :
    c = ':' ∨ c = '.' ∨ (Text.digit? 16 c).isSome = true := by
  refine (Text.exists_mem_splitAll (p := (· = ':')) hc).imp of_decide_eq_true ?_
  rintro ⟨part, hpart, hc⟩
  obtain ⟨g, hg⟩ | ⟨a, ha⟩ := isSome_of_groups? hgs hpart
  · exact .inr (digit?_isSome_of_group? hg c hc)
  · exact (IPv4.digit_of_ofChars? ha hc).imp_right (Text.digit?_isSome_mono (by decide))

theorem side?_of_ne_nil (h : cs ≠ []) : side? cs = groups? (colonParts cs) := by
  rw [side?, if_neg (by simpa using h)]

theorem digit_of_side? (hgs : side? cs = some gs) {c : Char} (hc : c ∈ cs) :
    c = ':' ∨ c = '.' ∨ (Text.digit? 16 c).isSome = true :=
  digit_of_groups? (side?_of_ne_nil (List.ne_nil_of_mem hc) ▸ hgs) hc

/-! ## The two colons -/

theorem splitGap?_cons {c : Char} (h : ¬ (c = ':' ∧ cs.head? = some ':')) :
    splitGap? (c :: cs) = (splitGap? cs).map fun (a, b) => (c :: a, b) := by
  cases cs with
  | nil => simp [splitGap?]
  | cons d cs =>
    rw [splitGap?]
    intro rest hc hcs
    exact h ⟨hc, congrArg List.head? hcs⟩

theorem splitGap?_colons : splitGap? (':' :: ':' :: cs) = some ([], cs) := by
  rw [splitGap?]

theorem head?_append_colon (front back : List Char) :
    (front ++ [':']).head? = (front ++ ':' :: ':' :: back).head? := by
  cases front with
  | nil => rfl
  | cons c front => rfl

/-- The two colons stand where the row is cut, and no others in front of them. -/
theorem splitGap?_eq_some (h : splitGap? cs = some (front, back)) :
    cs = front ++ ':' :: ':' :: back ∧ splitGap? (front ++ [':']) = none := by
  induction cs generalizing front with
  | nil => cases h
  | cons c cs ih =>
    by_cases hc : c = ':' ∧ cs.head? = some ':'
    · obtain ⟨rfl, hhead⟩ := hc
      obtain ⟨cs, rfl⟩ := List.head?_eq_some_iff.1 hhead
      rw [splitGap?_colons] at h
      cases h
      exact ⟨rfl, rfl⟩
    · rw [splitGap?_cons hc] at h
      obtain ⟨⟨front, back⟩, hrest, heq⟩ := Option.map_eq_some_iff.1 h
      cases heq
      obtain ⟨rfl, hnone⟩ := ih hrest
      rw [← head?_append_colon] at hc
      refine ⟨rfl, ?_⟩
      rw [List.cons_append, splitGap?_cons hc, hnone]
      rfl

theorem splitGap?_append_colons (h : splitGap? (front ++ [':']) = none) (back : List Char) :
    splitGap? (front ++ ':' :: ':' :: back) = some (front, back) := by
  induction front with
  | nil => exact splitGap?_colons
  | cons c front ih =>
    have hc : ¬ (c = ':' ∧ (front ++ [':']).head? = some ':') := by
      rintro ⟨rfl, hcolon⟩
      obtain ⟨rest, hrest⟩ := List.head?_eq_some_iff.1 hcolon
      rw [List.cons_append, hrest, splitGap?_colons] at h
      cases h
    rw [List.cons_append, splitGap?_cons hc, Option.map_eq_none_iff] at h
    rw [head?_append_colon front back] at hc
    rw [List.cons_append, splitGap?_cons hc, ih h]
    rfl

/-- More characters at the end go to what stands behind the two colons. -/
theorem splitGap?_append (h : splitGap? cs = some (front, back)) (rest : List Char) :
    splitGap? (cs ++ rest) = some (front, back ++ rest) := by
  obtain ⟨rfl, hnone⟩ := splitGap?_eq_some h
  rw [List.append_assoc, List.cons_append, List.cons_append]
  exact splitGap?_append_colons hnone (back ++ rest)

theorem splitGap?_of_append {rest : List Char} (h : splitGap? (cs ++ rest) = none) :
    splitGap? cs = none :=
  Option.eq_none_iff_forall_ne_some.2 fun (front, back) hgap => by
    rw [splitGap?_append hgap] at h
    cases h

/-! ## Literals -/

variable {s : String} {a : IPv6}

theorem ofGroups?_eq_some (h : ofGroups? gs = some a) : a.groups.toList = gs := by
  rw [ofGroups?] at h
  split at h
  · cases h
    rfl
  · cases h

theorem exists_ofGroups? (h : gs.length = 8) : ∃ a, ofGroups? gs = some a :=
  ⟨_, dif_pos h⟩

/-- Without two colons in a row there are eight groups in a literal. -/
theorem groups?_of_parse? (h : parse? s = some a) (hgap : splitGap? s.toList = none) :
    ∃ gs, groups? (colonParts s.toList) = some gs ∧ gs.length = 8 := by
  rw [parse?, hgap] at h
  obtain ⟨gs, hgs, ha⟩ := Option.bind_eq_some_iff.1 h
  have hlength : gs.length = 8 := by
    rw [← ofGroups?_eq_some ha]
    simp
  have hne : s.toList ≠ [] := fun hnil => by
    rw [hnil] at hgs
    cases hgs
    cases hlength
  exact ⟨gs, side?_of_ne_nil hne ▸ hgs, hlength⟩

/-- With them there are at most seven groups on both sides. -/
theorem sides_of_parse? (h : parse? s = some a)
    (hgap : splitGap? s.toList = some (front, back)) :
    ∃ head tail, side? front = some head ∧ side? back = some tail ∧ '.' ∉ front ∧
      head.length + tail.length ≤ 7 := by
  rw [parse?, hgap] at h
  obtain ⟨head, hhead, h⟩ := Option.bind_eq_some_iff.1 h
  obtain ⟨tail, htail, h⟩ := Option.bind_eq_some_iff.1 h
  split at h
  · cases h
  · rename_i hfits
    rw [Bool.or_eq_true, decide_eq_true_eq, not_or, List.contains_iff_mem, Nat.not_lt] at hfits
    exact ⟨head, tail, hhead, htail, hfits.1, hfits.2⟩

/-- Groups on both sides of two colons make a literal as long as there are at most seven. -/
theorem parse?_of_gap {head tail : List UInt16} (hgap : splitGap? s.toList = some (front, back))
    (hhead : side? front = some head) (htail : side? back = some tail) (hdot : '.' ∉ front)
    (hle : head.length + tail.length ≤ 7) : ∃ a, parse? s = some a := by
  have hfits : ¬ (front.contains '.' || head.length + tail.length > 7) = true := by
    rw [Bool.or_eq_true, decide_eq_true_eq, not_or, List.contains_iff_mem, Nat.not_lt]
    exact ⟨hdot, hle⟩
  rw [parse?, hgap]
  simp only [hhead, htail, Option.bind_eq_bind, Option.bind_some, if_neg hfits]
  refine exists_ofGroups? ?_
  simp only [List.length_append, List.length_replicate]
  omega

/-- Colons, dots and digits are the characters of a literal. -/
theorem not_mem_of_parse? (h : parse? s = some a) {c : Char} (hcolon : c ≠ ':') (hdot : c ≠ '.')
    (hdigit : Text.digit? 16 c = none) : c ∉ s.toList := by
  have hother : ¬ (c = ':' ∨ c = '.' ∨ (Text.digit? 16 c).isSome = true) := by
    simp [hcolon, hdot, hdigit]
  cases hgap : splitGap? s.toList with
  | none =>
    obtain ⟨gs, hgs, -⟩ := groups?_of_parse? h hgap
    exact fun hc => hother (digit_of_groups? hgs hc)
  | some sides =>
    obtain ⟨head, tail, hhead, htail, -⟩ := sides_of_parse? h hgap
    rw [(splitGap?_eq_some hgap).1]
    simp only [List.mem_append, List.mem_cons, not_or]
    exact ⟨fun hc => hother (digit_of_side? hhead hc), hcolon, hcolon,
      fun hc => hother (digit_of_side? htail hc)⟩

/-- There are colons in every literal. -/
theorem colon_mem_of_parse? (h : parse? s = some a) : ':' ∈ s.toList := by
  cases hgap : splitGap? s.toList with
  | none =>
    obtain ⟨gs, hgs, hlength⟩ := groups?_of_parse? h hgap
    by_contra hcolon
    rw [colonParts_of_not_mem hcolon] at hgs
    have hle := length_le_of_groups? hgs
    rw [hlength, List.length_singleton] at hle
    exact absurd hle (by decide)
  | some sides =>
    rw [(splitGap?_eq_some hgap).1]
    exact List.mem_append_right sides.1 List.mem_cons_self

/-- Where two colons stand in a row in a literal, they are the first that do. -/
theorem splitGap?_of_parse? (h : parse? s = some a)
    (hs : s.toList = front ++ ':' :: ':' :: back) : splitGap? s.toList = some (front, back) := by
  rw [hs]
  refine splitGap?_append_colons
    (Option.eq_none_iff_forall_ne_some.2 fun (first, rest) hfirst => ?_) back
  -- Otherwise there is an empty group between the first two colons and these.
  obtain ⟨hfront, -⟩ := splitGap?_eq_some hfirst
  have hempty : [] ∈ colonParts rest := by
    obtain rfl | ⟨rest, c, rfl⟩ := List.eq_nil_or_concat rest
    · exact List.mem_singleton_self _
    · have hlast := congrArg List.getLast? hfront
      simp only [List.concat_eq_append, ← List.cons_append, ← List.append_assoc,
        List.getLast?_concat, Option.some.injEq] at hlast
      rw [List.concat_eq_append, ← hlast, colonParts_append_cons]
      exact List.mem_append_right _ (List.mem_singleton_self _)
  have hgap : splitGap? s.toList = some (first, rest ++ ':' :: back) := by
    rw [hs, ← splitGap?_append hfirst, List.append_assoc]
    rfl
  obtain ⟨head, tail, -, htail, -⟩ := sides_of_parse? h hgap
  rw [side?_of_ne_nil (by simp), colonParts_append_cons] at htail
  exact nil_not_mem_of_groups? htail (List.mem_append_left _ hempty)

end IPv6

/-! ## The last group -/

theorem not_mem_of_readPort? {last : String} {port : UInt16} (h : readPort? last = some port)
    {c : Char} (hplus : c ≠ '+') (hdigit : Text.digit? 10 c = none) : c ∉ last.toList := by
  obtain ⟨n, hread, -⟩ := Option.map_eq_some_iff.1 h
  exact Text.not_mem_of_readNatural? hread hplus hdigit

namespace IPv6

/-- Behind two colons in a row there are at least two groups in `s`, and the last one can be
read as a port. -/
structure EndsInPort (s front back last : String) (port : UInt16) : Prop where
  eq : s = front ++ "::" ++ back ++ ":" ++ last
  ne_empty : back ≠ ""
  readPort : readPort? last = some port

variable {s front back last : String} {port : UInt16} {a b : IPv6}

/-- Without the last group, which is then not part of an address of version 4, there is one
more for the two colons to stand for. -/
theorem exists_parse?_of_endsInPort (h : parse? s = some a)
    (hs : EndsInPort s front back last port) : ∃ b, parse? (front ++ "::" ++ back) = some b := by
  have hlist : s.toList =
      front.toList ++ ':' :: ':' :: (back.toList ++ ':' :: last.toList) := by
    rw [hs.eq]
    simp
  have hcolon : ':' ∉ last.toList := not_mem_of_readPort? hs.readPort (by decide) rfl
  have hdot : '.' ∉ last.toList := not_mem_of_readPort? hs.readPort (by decide) rfl
  have hback : back.toList ≠ [] := fun hnil => hs.ne_empty (String.toList_eq_nil_iff.1 hnil)
  have hgap := splitGap?_of_parse? h hlist
  obtain ⟨head, tail, hhead, htail, hfront, hle⟩ := sides_of_parse? h hgap
  rw [side?_of_ne_nil (by simp), colonParts_append_cons, colonParts_of_not_mem hcolon] at htail
  obtain ⟨g, rest, hrest, rfl⟩ := groups?_concat htail (IPv4.ofChars?_of_not_mem hdot)
  rw [← side?_of_ne_nil hback] at hrest
  rw [List.length_append, List.length_singleton] at hle
  have hshort : (front ++ "::" ++ back).toList = front.toList ++ ':' :: ':' :: back.toList := by
    simp
  have hcut := splitGap?_append_colons (splitGap?_eq_some hgap).2 back.toList
  exact parse?_of_gap (hshort ▸ hcut) hhead hrest hfront (by omega)

/-- The last colon is the second one of the two in a row, or it stands behind them. -/
theorem last_colon {host last front back : List Char}
    (h : host ++ ':' :: last = front ++ ':' :: ':' :: back) (hlast : ':' ∉ last) :
    host = front ++ [':'] ∨
      ∃ rest, host = front ++ ':' :: ':' :: rest ∧ back = rest ++ ':' :: last := by
  have happend : host ++ ':' :: last = (front ++ [':']) ++ ':' :: back := by simpa using h
  obtain ⟨more, hfront, hmore⟩ | ⟨more, rfl, hmore⟩ := List.append_eq_append_iff.1 happend
  · cases more with
    | nil => exact .inl (by simpa using hfront.symm)
    | cons c more =>
      obtain ⟨-, rfl⟩ := List.cons.inj hmore
      exact absurd (List.mem_append_right more List.mem_cons_self) hlast
  · cases more with
    | nil => exact .inl (List.append_nil _)
    | cons c more =>
      obtain ⟨rfl, rfl⟩ := List.cons.inj hmore
      exact .inr ⟨more, by simp, rfl⟩

/-- The last colon of a literal is not the only one. -/
theorem colon_mem_host {host last : List Char} (h : parse? s = some a)
    (hs : s.toList = host ++ ':' :: last) (hlast : ':' ∉ last) : ':' ∈ host := by
  cases hgap : splitGap? s.toList with
  | none =>
    obtain ⟨gs, hgs, hlength⟩ := groups?_of_parse? h hgap
    by_contra hhost
    rw [hs, colonParts_append_cons, colonParts_of_not_mem hhost,
      colonParts_of_not_mem hlast] at hgs
    have hle := length_le_of_groups? hgs
    rw [hlength] at hle
    exact Nat.not_le.2 (by decide : 2 + 1 < 8) hle
  | some sides =>
    obtain ⟨heq, -⟩ := splitGap?_eq_some hgap
    obtain rfl | ⟨rest, rfl, -⟩ := last_colon (hs ▸ heq) hlast
    · exact List.mem_append_right _ (List.mem_singleton_self _)
    · exact List.mem_append_right _ List.mem_cons_self

/-- If what stands in front of the last colon is a literal, too, there are two colons in it. -/
theorem endsInPort_of_parse? {host last : List Char} (h : parse? s = some a)
    (hs : s.toList = host ++ ':' :: last) (hport : readPort? (String.ofList last) = some port)
    (hb : parse? (String.ofList host) = some b) :
    ∃ front back, EndsInPort s front back (String.ofList last) port := by
  have hcolon : ':' ∉ last := by
    simpa using not_mem_of_readPort? hport (c := ':') (by decide) rfl
  have hdot : '.' ∉ last := by
    simpa using not_mem_of_readPort? hport (c := '.') (by decide) rfl
  cases hgap : splitGap? s.toList with
  | none =>
    -- Of eight groups only seven are left.
    obtain ⟨gs, hgs, hlength⟩ := groups?_of_parse? h hgap
    rw [hs, colonParts_append_cons, colonParts_of_not_mem hcolon] at hgs
    obtain ⟨g, rest, hrest, rfl⟩ := groups?_concat hgs (IPv4.ofChars?_of_not_mem hdot)
    rw [hs] at hgap
    have hhost : splitGap? (String.ofList host).toList = none :=
      String.toList_ofList ▸ splitGap?_of_append hgap
    obtain ⟨init, hinit, hinitLength⟩ := groups?_of_parse? hb hhost
    rw [String.toList_ofList, hrest] at hinit
    cases hinit
    rw [List.length_append, List.length_singleton, hinitLength] at hlength
    cases hlength
  | some sides =>
    obtain ⟨front, back⟩ := sides
    obtain ⟨heq, hfirst⟩ := splitGap?_eq_some hgap
    obtain ⟨head, tail, -, htail, -⟩ := sides_of_parse? h hgap
    obtain rfl | ⟨rest, rfl, rfl⟩ := last_colon (hs ▸ heq) hcolon
    · -- With the second of the two colons the host would end in an empty group.
      rw [← String.toList_ofList (l := front ++ [':'])] at hfirst
      obtain ⟨gs, hgs, -⟩ := groups?_of_parse? hb hfirst
      rw [String.toList_ofList, colonParts_append_cons] at hgs
      exact absurd (List.mem_append_right _ (List.mem_singleton_self _))
        (nil_not_mem_of_groups? hgs)
    · refine ⟨String.ofList front, String.ofList rest, ?_, fun hempty => ?_, hport⟩
      · rw [← String.toList_inj, hs]
        simp
      · obtain rfl := String.ofList_eq_empty_iff.1 hempty
        rw [side?_of_ne_nil (by simp), colonParts_append_cons] at htail
        exact nil_not_mem_of_groups? htail (List.mem_append_left _ (List.mem_singleton_self _))

end IPv6

/-! ## Dial strings -/

/-- No host is found under a name with colons that is not a literal itself. Behind a percent
sign a literal may name a scope, which the system looks up. -/
def HostNames.WithoutColons (names : HostNames) : Prop :=
  ∀ host port, ':' ∈ host.toList → '%' ∉ host.toList → IPv6.parse? host = none →
    names host port = none

theorem IPv4.spelledPart?_of_colon {part : List Char} (h : ':' ∈ part) :
    spelledPart? part = none := by
  have hread {base : Nat} {cs : List Char} (hbase : Text.digit? base ':' = none) (hc : ':' ∈ cs) :
      Text.readDigits? base cs = none :=
    Option.eq_none_iff_forall_ne_some.2 fun n hn => by
      have hsome := Text.digit?_isSome_of_readDigits? hn ':' hc
      rw [hbase] at hsome
      cases hsome
  rw [spelledPart?.eq_def]
  split
  · exact hread rfl (by simpa using h)
  · exact hread rfl (by simpa using h)
  · rename_i cs _ _
    have hcs : ':' ∈ cs := by simpa using h
    rw [if_neg (by simpa using List.ne_nil_of_mem hcs)]
    exact hread rfl hcs
  · exact hread rfl h

theorem IPv4.mapM_spelledPart?_of_colon {parts : List (List Char)} {part : List Char}
    (hpart : part ∈ parts) (h : ':' ∈ part) : parts.mapM spelledPart? = none := by
  induction parts with
  | nil => cases hpart
  | cons first parts ih =>
    rw [List.mapM_cons]
    obtain rfl | hpart := List.mem_cons.1 hpart
    · rw [spelledPart?_of_colon h]
      rfl
    · rw [ih hpart]
      cases spelledPart? first with
      | none => rfl
      | some n => rfl

/-- There are no colons in the older spellings. -/
theorem spelledHosts_withoutColons : spelledHosts.WithoutColons := by
  intro host port hcolon _ _
  obtain hdot | ⟨part, hpart, hmem⟩ := Text.exists_mem_splitAll (p := (· = '.')) hcolon
  · cases hdot
  · rw [spelledHosts, IPv4.ofSpelling?, IPv4.mapM_spelledPart?_of_colon hpart hmem]
    rfl

section

variable {names : HostNames} {s : String} {port : UInt16}

theorem hostAddress?_v6 {a : IPv6} (h : IPv6.parse? s = some a) :
    hostAddress? names s port = some (.v6 a port 0) := by
  rw [hostAddress?, IPv4.parse?_of_colon (IPv6.colon_mem_of_parse? h)]
  simp only [h]

/-- A name with colons is looked up in vain. -/
theorem hostAddress?_eq_none (hnames : names.WithoutColons) (hcolon : ':' ∈ s.toList)
    (hscope : '%' ∉ s.toList) (h : IPv6.parse? s = none) : hostAddress? names s port = none := by
  rw [hostAddress?, IPv4.parse?_of_colon hcolon]
  simp only [h, hnames s port hcolon hscope h, ite_self]

variable (defaultPort : UInt16)

/-- Without exclamation marks, what stands behind the last colon is the port. -/
theorem dialTarget?_last_colon {host last : List Char} (hmark : '!' ∉ s.toList)
    (hs : s.toList = host ++ ':' :: last) (hlast : ':' ∉ last) :
    dialTarget? s defaultPort =
      (readPort? (String.ofList last)).map (String.ofList host, ·) := by
  simp only [dialTarget?, splitDial?_eq_none hmark, hs, Text.splitLast?_append_cons hlast]

/-- Without colons, too, there is no port. -/
theorem dialTarget?_of_not_mem (hmark : '!' ∉ s.toList) (hcolon : ':' ∉ s.toList) :
    dialTarget? s defaultPort = some (s, defaultPort) := by
  simp only [dialTarget?, splitDial?_eq_none hmark, Text.splitLast?_of_not_mem hcolon]

theorem parseDialBy_eq_error
    (h : ∀ host port, dialTarget? s defaultPort = some (host, port) →
      hostAddress? names host port = none) :
    parseDialBy names s defaultPort = .error (.invalidParameter (.badAddress s)) := by
  simp only [parseDialBy]
  split
  · rename_i address hfound
    obtain ⟨⟨host, port⟩, htarget, haddress⟩ := Option.bind_eq_some_iff.1 hfound
    rw [h host port htarget] at haddress
    cases haddress
  · rfl

/-- A literal of version 6 with a last group that is read as a port is read as the literal
without that group. -/
theorem parseDialBy_of_endsInPort {a : IPv6} {front back last : String}
    (h : IPv6.parse? s = some a) (hs : IPv6.EndsInPort s front back last port) :
    ∃ b, IPv6.parse? (front ++ "::" ++ back) = some b ∧
      parseDialBy names s defaultPort = .ok (.v6 b port 0) := by
  obtain ⟨b, hb⟩ := IPv6.exists_parse?_of_endsInPort h hs
  have hlist : s.toList = (front ++ "::" ++ back).toList ++ ':' :: last.toList := by
    rw [hs.eq]
    simp
  have htarget := dialTarget?_last_colon defaultPort
    (IPv6.not_mem_of_parse? h (by decide) (by decide) rfl) hlist
    (not_mem_of_readPort? hs.readPort (by decide) rfl)
  rw [String.ofList_toList, String.ofList_toList, hs.readPort, Option.map_some] at htarget
  exact ⟨b, hb, parseDialBy_eq_ok_iff.2 ⟨_, port, htarget, hostAddress?_v6 hb⟩⟩

/-- Every other literal of version 6 is refused. -/
theorem parseDialBy_of_not_endsInPort (hnames : names.WithoutColons) {a : IPv6}
    (h : IPv6.parse? s = some a)
    (hs : ∀ front back last port, ¬ IPv6.EndsInPort s front back last port) :
    parseDialBy names s defaultPort = .error (.invalidParameter (.badAddress s)) := by
  obtain ⟨host, last, hcut, hlast⟩ :=
    Text.exists_last_of_mem (IPv6.colon_mem_of_parse? h)
  have hmark : '!' ∉ s.toList := IPv6.not_mem_of_parse? h (by decide) (by decide) rfl
  have hscope : '%' ∉ s.toList := IPv6.not_mem_of_parse? h (by decide) (by decide) rfl
  refine parseDialBy_eq_error defaultPort fun name port htarget => ?_
  rw [dialTarget?_last_colon defaultPort hmark hcut hlast] at htarget
  obtain ⟨port, hport, heq⟩ := Option.map_eq_some_iff.1 htarget
  cases heq
  refine hostAddress?_eq_none hnames ?_ ?_ (Option.eq_none_iff_forall_ne_some.2 fun b hb => ?_)
  · rw [String.toList_ofList]
    exact IPv6.colon_mem_host h hcut hlast
  · rw [String.toList_ofList]
    exact fun hmem => hscope (hcut ▸ List.mem_append_left _ hmem)
  · obtain ⟨front, back, hends⟩ := IPv6.endsInPort_of_parse? h hcut hport hb
    exact hs front back _ _ hends

end

/-- Whoever looks up the names of hosts, a literal between exclamation marks is read as the
address that it stands for, and so is a literal of version 4 without a port. A literal of
version 6 without a port is not: if there are two colons in a row in front of its last two
groups and the last one is a decimal number, this number is taken for the port and the
literal without its last group for the address. Every other one is refused. -/
theorem parseDialBy_literal {names : HostNames} (hnames : names.WithoutColons) (s : String)
    (defaultPort : UInt16) :
    (∀ a, IPv4.parse? s = some a →
      parseDialBy names s defaultPort = .ok (.v4 a defaultPort) ∧
      ∀ port, parseDialBy names (dialText s port) defaultPort = .ok (.v4 a port)) ∧
    ∀ a, IPv6.parse? s = some a →
      (∀ port, parseDialBy names (dialText s port) defaultPort = .ok (.v6 a port 0)) ∧
      (∀ front back last port, IPv6.EndsInPort s front back last port →
        ∃ b, IPv6.parse? (front ++ "::" ++ back) = some b ∧
          parseDialBy names s defaultPort = .ok (.v6 b port 0)) ∧
      ((∀ front back last port, ¬ IPv6.EndsInPort s front back last port) →
        parseDialBy names s defaultPort = .error (.invalidParameter (.badAddress s))) := by
  refine ⟨fun a ha => ?_, fun a ha => ⟨fun port => ?_, fun front back last port hs => ?_, ?_⟩⟩
  · have hmark : '!' ∉ s.toList := IPv4.not_mem_of_parse? ha (by decide) rfl
    have hcolon : ':' ∉ s.toList := IPv4.not_mem_of_parse? ha (by decide) rfl
    exact ⟨parseDialBy_eq_ok_iff.2
        ⟨s, defaultPort, dialTarget?_of_not_mem defaultPort hmark hcolon, hostAddress?_v4 names ha⟩,
      fun port => parseDialBy_eq_ok_iff.2
        ⟨s, port, dialTarget?_dialText defaultPort hmark, hostAddress?_v4 names ha⟩⟩
  · have hmark : '!' ∉ s.toList := IPv6.not_mem_of_parse? ha (by decide) (by decide) rfl
    exact parseDialBy_eq_ok_iff.2
      ⟨s, port, dialTarget?_dialText defaultPort hmark, hostAddress?_v6 ha⟩
  · exact parseDialBy_of_endsInPort defaultPort ha hs
  · exact parseDialBy_of_not_endsInPort defaultPort hnames ha

/-- The last group of this literal is taken for the port. -/
theorem parseDialBy_literal_two_groups :
    spelledHosts.WithoutColons ∧
      IPv6.parse? "::1:2" = some ⟨#v[0, 0, 0, 0, 0, 0, 1, 2]⟩ ∧
      IPv6.EndsInPort "::1:2" "" "1" "2" 2 ∧
      parseDialBy spelledHosts (dialText "::1:2" 564) 564 =
        .ok (.v6 ⟨#v[0, 0, 0, 0, 0, 0, 1, 2]⟩ 564 0) ∧
      parseDialBy spelledHosts "::1:2" 564 = .ok (.v6 ⟨#v[0, 0, 0, 0, 0, 0, 0, 1]⟩ 2 0) := by
  have ha : IPv6.parse? "::1:2" = some ⟨#v[0, 0, 0, 0, 0, 0, 1, 2]⟩ := by rfl
  have hb : IPv6.parse? "::1" = some ⟨#v[0, 0, 0, 0, 0, 0, 0, 1]⟩ := by rfl
  have hends : IPv6.EndsInPort "::1:2" "" "1" "2" 2 := ⟨by rfl, by decide, by rfl⟩
  obtain ⟨-, hv6⟩ := parseDialBy_literal spelledHosts_withoutColons "::1:2" 564
  obtain ⟨hmarks, hport, -⟩ := hv6 _ ha
  obtain ⟨b, hparse, hok⟩ := hport "" "1" "2" 2 hends
  change IPv6.parse? "::1" = some b at hparse
  obtain rfl := Option.some.inj (hb.symm.trans hparse)
  exact ⟨spelledHosts_withoutColons, ha, hends, hmarks 564, hok⟩

/-- So a literal without a port is not always read as its address with the default port, or
refused. -/
theorem not_parseDial_literal :
    ¬ ∀ (s : String) (a : IPv6) (defaultPort : UInt16), IPv6.parse? s = some a →
      parseDial s defaultPort = .ok (.v6 a defaultPort 0) ∨
        ∃ misuse, parseDial s defaultPort = .error (.invalidParameter misuse) := by
  intro h
  have hread : parseDial "::1:2" 564 = .ok (.v6 ⟨#v[0, 0, 0, 0, 0, 0, 0, 1]⟩ 2 0) := by rfl
  obtain hok | ⟨misuse, herror⟩ := h "::1:2" ⟨#v[0, 0, 0, 0, 0, 0, 1, 2]⟩ 564 (by rfl)
  · rw [hread] at hok
    exact absurd hok (by decide)
  · rw [hread] at herror
    cases herror

end NineP
