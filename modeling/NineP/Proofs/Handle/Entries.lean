import Mathlib.Data.Fintype.Card
import NineP.Handle

/-!
# The entries of a directory behind a cookie

A listing of a directory goes on behind the cookie of an entry. Part of the entries
have been passed, part wait in the handle, and the rest has not been fetched:

* `DirEntry.following_append`: behind the last entry that was passed there come the
  others;
* `DirEntry.length_lt_of_distinct`: there are not more entries than cookies;
* `Handle.Listed`: how far a listing has come, and that the position tells;
* `Handle.Listed.skipDots`, `give`, `fetch`, `finish`: what each step of a listing
  makes of it.
-/

namespace NineP

namespace DirEntry

/-- The entries after the one with the given cookie. -/
def after (cookie : UInt64) : List DirEntry → List DirEntry
  | [] => []
  | e :: es => if e.cookie = cookie then es else after cookie es

/-- The entries that follow a cookie. All of them follow zero. -/
def following (cookie : UInt64) (entries : List DirEntry) : List DirEntry :=
  if cookie = 0 then entries else after cookie entries

/-- The cookie of the last entry, or zero if there is none. -/
def lastCookie (entries : List DirEntry) : UInt64 := (entries.getLast?.map cookie).getD 0

/-- The names of the entries other than the directory itself and its parent. -/
def shown (entries : List DirEntry) : List String := (entries.filter (!·.isDot)).map name

theorem shown_append (xs ys : List DirEntry) : shown (xs ++ ys) = shown xs ++ shown ys := by
  rw [shown, List.filter_append, List.map_append, shown, shown]

theorem shown_singleton {e : DirEntry} (h : e.isDot = false) : shown [e] = [e.name] := by
  simp [shown, h]

theorem shown_takeWhile (entries : List DirEntry) : shown (entries.takeWhile isDot) = [] := by
  have hnone : (entries.takeWhile isDot).filter (!·.isDot) = [] := by
    rw [List.filter_eq_nil_iff]
    intro e he
    have hdot := List.all_eq_true.1 List.all_takeWhile e he
    simp [hdot]
  rw [shown, hnone, List.map_nil]

theorem lastCookie_concat (entries : List DirEntry) (e : DirEntry) :
    lastCookie (entries ++ [e]) = e.cookie := by
  simp [lastCookie]

theorem lastCookie_append (xs ys : List DirEntry) :
    lastCookie (xs ++ ys) = (ys.getLast?.map cookie).getD (lastCookie xs) := by
  rw [lastCookie, List.getLast?_append]
  cases ys.getLast? with
  | none => rfl
  | some e => rfl

theorem after_append {passed rest : List DirEntry} {e : DirEntry}
    (h : e.cookie ∉ passed.map cookie) : after e.cookie (passed ++ e :: rest) = rest := by
  induction passed with
  | nil => simp only [List.nil_append, after, if_true]
  | cons x xs ih =>
    simp only [List.map_cons, List.mem_cons, not_or] at h
    rw [List.cons_append, after, if_neg (Ne.symm h.1)]
    exact ih h.2

/-- A listing goes on behind the entries that have been passed. -/
theorem following_append {passed rest : List DirEntry}
    (hdistinct : ((passed ++ rest).map cookie).Nodup) (hzero : ∀ e ∈ passed ++ rest, e.cookie ≠ 0) :
    following (lastCookie passed) (passed ++ rest) = rest := by
  rcases List.eq_nil_or_concat passed with rfl | ⟨init, e, rfl⟩
  · rfl
  · rw [List.concat_eq_append] at hdistinct hzero ⊢
    have hcookie : e.cookie ≠ 0 := hzero e (by simp)
    have hnew : e.cookie ∉ init.map cookie := by
      rw [List.append_assoc, List.map_append, List.nodup_append] at hdistinct
      exact fun hmem => hdistinct.2.2 _ hmem _ (by simp) rfl
    rw [lastCookie_concat, following, if_neg hcookie, List.append_assoc]
    exact after_append hnew

/-- There are not more entries than cookies. -/
theorem length_lt_of_distinct {entries : List DirEntry} (hdistinct : (entries.map cookie).Nodup)
    (hzero : ∀ e ∈ entries, e.cookie ≠ 0) : entries.length < UInt64.size := by
  have hall : (0 :: entries.map cookie).Nodup := by
    refine List.nodup_cons.2 ⟨fun hmem => ?_, hdistinct⟩
    obtain ⟨e, he, hc⟩ := List.mem_map.1 hmem
    exact hzero e he hc
  have hfin : ((0 :: entries.map cookie).map UInt64.toFin).Nodup :=
    hall.map fun a b hab => UInt64.toFin_inj.1 hab
  have hcard := hfin.length_le_card
  rw [Fintype.card_fin, List.length_map, List.length_cons, List.length_map] at hcard
  exact hcard

end DirEntry

namespace Handle

/-- A directory that nothing has been read of. -/
structure Unread (h : Handle) : Prop where
  kind : h.kind = .directory
  position : h.position = 0
  pending : h.pending = []
  exhausted : h.exhausted = false

/-- The entries of a directory have been passed as far as `passed`. -/
structure Listed (msize : UInt32) (entries passed : List DirEntry) (h : Handle) : Prop where
  kind : h.kind = .directory
  position : h.position = DirEntry.lastCookie passed
  split : ∃ unseen, entries = passed ++ (h.pending ++ unseen) ∧
    (h.exhausted = true → h.pending = [] ∧ unseen = [])
  /-- The entries that wait have come in a message, so that their names fit one. -/
  fits : ∀ e ∈ h.pending, e.name.utf8ByteSize ≤ Codec.maxTextSize ∧
    e.name.utf8ByteSize ≤ msize.toNat - 19

namespace Listed

variable {msize : UInt32} {entries passed : List DirEntry} {h : Handle}

theorem of_unread (hu : h.Unread) : Listed msize entries [] h where
  kind := hu.kind
  position := hu.position
  split := ⟨entries, by simp [hu.pending], fun he => by simp [hu.exhausted] at he⟩
  fits := by simp [hu.pending]

/-- The entries in front that are not shown are passed, and no others. -/
theorem skipDots {position : UInt64} {pending : List DirEntry} (hl : Listed msize entries passed h)
    (hp : Handle.skipDots h.position h.pending = (position, pending)) :
    ∃ dots, Listed msize entries (passed ++ dots) { h with position, pending } ∧
      DirEntry.shown (passed ++ dots) = DirEntry.shown passed ∧
      dots.length + pending.length = h.pending.length ∧
      ∀ e rest, pending = e :: rest → e.isDot = false := by
  rw [skipDots_eq] at hp
  obtain ⟨rfl, rfl⟩ := Prod.mk.inj hp
  refine ⟨h.pending.takeWhile DirEntry.isDot, ⟨hl.kind, ?_, ?_, fun e he => ?_⟩, ?_, ?_,
    fun e rest he => ?_⟩
  · rw [DirEntry.lastCookie_append, ← hl.position]
  · obtain ⟨unseen, hentries, hend⟩ := hl.split
    refine ⟨unseen, ?_, fun he => ?_⟩
    · rw [hentries, List.append_assoc, ← List.append_assoc (List.takeWhile ..),
        List.takeWhile_append_dropWhile]
    · obtain ⟨hpending, hunseen⟩ := hend he
      rw [hpending]
      exact ⟨rfl, hunseen⟩
  · exact hl.fits e ((List.dropWhile_sublist _).subset he)
  · rw [DirEntry.shown_append, DirEntry.shown_takeWhile, List.append_nil]
  · rw [← List.length_append, List.takeWhile_append_dropWhile]
  · have hne : h.pending.dropWhile DirEntry.isDot ≠ [] := by simp [he]
    have hnot := List.head_dropWhile_not DirEntry.isDot hne
    simpa only [he, List.head_cons] using hnot

/-- The entry in front is given out. -/
theorem give {e : DirEntry} {rest : List DirEntry} (hl : Listed msize entries passed h)
    (hp : h.pending = e :: rest) :
    Listed msize entries (passed ++ [e]) { h with position := e.cookie, pending := rest } where
  kind := hl.kind
  position := (DirEntry.lastCookie_concat passed e).symm
  split := by
    obtain ⟨unseen, hentries, hend⟩ := hl.split
    refine ⟨unseen, by simp [hentries, hp], fun he => ?_⟩
    obtain ⟨hpending, -⟩ := hend he
    rw [hp] at hpending
    cases hpending
  fits x hx := hl.fits x (by rw [hp]; exact List.mem_cons_of_mem _ hx)

/-- Nothing waits, so that the server is asked for what is unseen. -/
theorem following (hl : Listed msize entries passed h) (hp : h.pending = [])
    (hdistinct : (entries.map DirEntry.cookie).Nodup) (hzero : ∀ e ∈ entries, e.cookie ≠ 0) :
    entries = passed ++ DirEntry.following h.position entries := by
  obtain ⟨unseen, hentries, -⟩ := hl.split
  rw [hp, List.nil_append] at hentries
  rw [hentries] at hdistinct hzero
  have hnext := DirEntry.following_append hdistinct hzero
  rw [← hentries, ← hl.position] at hnext
  rw [hnext, ← hentries]

/-- A batch of unseen entries waits. -/
theorem fetch {batch rest : List DirEntry} (hl : Listed msize entries passed h)
    (hall : entries = passed ++ rest) (hbatch : batch <+: rest) (he : h.exhausted = false)
    (hfits : ∀ e ∈ batch, e.name.utf8ByteSize ≤ Codec.maxTextSize ∧
      e.name.utf8ByteSize ≤ msize.toNat - 19) :
    Listed msize entries passed { h with pending := batch } where
  kind := hl.kind
  position := hl.position
  split := by
    obtain ⟨unseen, hunseen⟩ := hbatch
    rw [← hunseen] at hall
    refine ⟨unseen, hall, fun hx => ?_⟩
    rw [he] at hx
    cases hx
  fits := hfits

/-- The server has no more entries. -/
theorem finish {rest : List DirEntry} (hl : Listed msize entries passed h) (hp : h.pending = [])
    (hall : entries = passed ++ rest) (hnone : rest = []) :
    Listed msize entries passed { h with exhausted := true } where
  kind := hl.kind
  position := hl.position
  split := by
    rw [hnone] at hall
    refine ⟨[], ?_, fun _ => ⟨hp, rfl⟩⟩
    show entries = passed ++ (h.pending ++ [])
    rw [hp]
    exact hall
  fits := hl.fits

/-- All entries have been passed. -/
theorem complete (hl : Listed msize entries passed h) (he : h.exhausted = true) :
    passed = entries := by
  obtain ⟨unseen, hentries, hend⟩ := hl.split
  obtain ⟨hpending, rfl⟩ := hend he
  rw [hentries, hpending, List.append_nil, List.append_nil]

theorem prefix_entries (hl : Listed msize entries passed h) : passed <+: entries := by
  obtain ⟨unseen, hentries, -⟩ := hl.split
  exact ⟨h.pending ++ unseen, hentries.symm⟩

end Listed

end Handle

end NineP
