import NineP.Proofs.World.Serving
import NineP.Proofs.World.Wire

/-!
# The discipline of fids

What a client may ask about a fid depends on what it has asked and been told
before. A new fid is one that was never asked for; it may be used from the
response that establishes it until it is given back; it is opened at most once,
and read only after that. All of this is read off the record of what went over
the wire:

* `Wire.transcript`: the requests in the record with their answers, as far as
  there is one that the client would accept;
* `Transcript.Proper`: what a request may be after those before it;
* `Wire.Disciplined`: every request in the record is proper.
-/

namespace NineP

namespace Body

/-- The fid that a request uses, other than one that it asks for. -/
def usedFid? : Body → Option UInt32
  | .twalk fid _ _ | .tstatfs fid | .tlopen fid _ | .treadlink fid | .tgetattr fid _
  | .treaddir fid _ _ | .tread fid _ _ | .tclunk fid => some fid
  | _ => none

/-- The fid that a request opens. -/
def opens? : Body → Option UInt32
  | .tlopen fid _ => some fid
  | _ => none

/-- The fid that a request reads from. -/
def reads? : Body → Option UInt32
  | .tread fid _ _ | .treaddir fid _ _ => some fid
  | _ => none

/-- The fid that a request gives as proof of who the user is. -/
def afid? : Body → Option UInt32
  | .tattach _ afid _ _ => some afid
  | _ => none

theorem reads?_known (b : Body) : b.known.reads? = b.reads? := by
  cases b <;> rfl

end Body

/-- Requests, each with the answer that came to it, if one did; the last request
stands first. -/
abbrev Transcript := List (Body × Option Body)

namespace Transcript

/-- The fids that have been asked for. -/
def named (talk : Transcript) : List UInt32 := talk.filterMap (·.1.newFid?)

/-- The fids that were asked for and granted, and have not been given back since.
A request without an answer grants nothing, but gives a fid back. -/
def established : Transcript → List UInt32
  | [] => []
  | (request, answer) :: talk =>
    Body.settle (established talk) request (answer.getD (.rlerror 0))

/-- The fids that the client has tried to open. -/
def tried (talk : Transcript) : List UInt32 := talk.filterMap (·.1.opens?)

/-- The fid that is opened by a request and its answer. -/
def openedBy? : Body × Option Body → Option UInt32
  | (.tlopen fid _, some (.rlopen ..)) => some fid
  | _ => none

/-- The fids that have been opened. -/
def opened (talk : Transcript) : List UInt32 := talk.filterMap openedBy?

/-- What a request may be after the ones before it: a fid that it asks for has
never been asked for and is not one of the values that name no fid, a fid that it
uses has been established and not been given back, a fid that it opens has not
been opened before, and a fid that it reads from has. -/
structure Proper (before : Transcript) (request : Body) : Prop where
  fresh : ∀ fid, request.newFid? = some fid → fid ∉ before.named ∧ fid ≠ 0 ∧ fid ≠ noFid
  used : ∀ fid, request.usedFid? = some fid → fid ∈ before.established
  unauthenticated : ∀ afid, request.afid? = some afid → afid = noFid
  opening : ∀ fid, request.opens? = some fid → fid ∉ before.opened
  reading : ∀ fid, request.reads? = some fid → fid ∈ before.opened

/-- Every request is proper after the ones before it. -/
def Disciplined : Transcript → Prop
  | [] => True
  | (request, _) :: before => Proper before request ∧ Disciplined before

variable {talk : Transcript} {request : Body} {answer : Option Body} {fid : UInt32}

theorem named_cons (talk : Transcript) (request : Body) (answer : Option Body) :
    named ((request, answer) :: talk) = request.newFid?.toList ++ talk.named := by
  cases h : request.newFid? with
  | none => exact List.filterMap_cons_none h
  | some fid => exact List.filterMap_cons_some h

theorem tried_cons (talk : Transcript) (request : Body) (answer : Option Body) :
    tried ((request, answer) :: talk) = request.opens?.toList ++ talk.tried := by
  cases h : request.opens? with
  | none => exact List.filterMap_cons_none h
  | some fid => exact List.filterMap_cons_some h

theorem opened_cons (talk : Transcript) (request : Body) (answer : Option Body) :
    opened ((request, answer) :: talk) = (openedBy? (request, answer)).toList ++ talk.opened := by
  cases h : openedBy? (request, answer) with
  | none => exact List.filterMap_cons_none h
  | some fid => exact List.filterMap_cons_some h

theorem openedBy?_eq_some (h : openedBy? (request, answer) = some fid) :
    request.opens? = some fid := by
  cases request with
  | tlopen =>
    cases answer with
    | none => cases h
    | some b => cases b <;> first | exact h | cases h
  | _ => cases h

/-- A fid that was opened was tried. -/
theorem opened_subset_tried (talk : Transcript) : talk.opened ⊆ talk.tried := by
  intro fid hf
  obtain ⟨⟨request, answer⟩, hm, ho⟩ := List.mem_filterMap.1 hf
  exact List.mem_filterMap.2 ⟨(request, answer), hm, openedBy?_eq_some ho⟩

/-- A fid that is established was asked for. -/
theorem established_subset_named (talk : Transcript) : talk.established ⊆ talk.named := by
  induction talk with
  | nil => exact List.Subset.refl _
  | cons entry talk ih =>
    obtain ⟨request, answer⟩ := entry
    intro fid hf
    rw [named_cons, List.mem_append]
    by_cases hc : request.type = .tclunk
    · cases request with
      | tclunk => exact .inr (ih (List.mem_filter.1 hf).1)
      | _ => cases hc
    rw [established] at hf
    cases hn : request.newFid? with
    | none =>
      rw [Body.settle_of_ne hn hc] at hf
      exact .inr (ih hf)
    | some new =>
      rw [Body.settle_of_newFid hn] at hf
      split at hf
      · exact (List.mem_cons.1 hf).imp (fun h => List.mem_singleton.2 h) fun h => ih h
      · exact .inr (ih hf)

/-- A disciplined client opens only fids that it has asked for. -/
theorem Disciplined.tried_subset_named (h : talk.Disciplined) : talk.tried ⊆ talk.named := by
  induction talk with
  | nil => exact List.Subset.refl _
  | cons entry talk ih =>
    obtain ⟨request, answer⟩ := entry
    intro fid hf
    rw [named_cons, List.mem_append]
    rw [tried_cons, List.mem_append, Option.mem_toList] at hf
    rcases hf with hf | hf
    · have hused : request.usedFid? = some fid := by
        cases request with
        | tlopen => exact hf
        | _ => cases hf
      exact .inr (established_subset_named talk (h.1.used fid hused))
    · exact .inr (ih h.2 hf)

end Transcript

namespace Wire

/-- What a client with a request of the given tag takes for its answer. -/
def answer? (tag : UInt16) (heard : Bytes) : Option Body :=
  match Frame.decode heard with
  | .ok m => if m.tag = tag then some m.body else none
  | .error _ => none

/-- A request and its answer. -/
def exchanged? (entry : Bytes × Bytes) : Option (Body × Option Body) :=
  match Frame.decode entry.1 with
  | .ok m => some (m.body, answer? m.tag entry.2)
  | .error _ => none

/-- The requests that were sent and their answers. -/
def transcript (log : Wire) : Transcript := log.filterMap exchanged?

/-- Only well-formed requests were sent, and each was proper. -/
def Disciplined (log : Wire) : Prop :=
  (∀ entry ∈ log, (exchanged? entry).isSome) ∧ log.transcript.Disciplined

variable {log : Wire} {entry : Bytes × Bytes} {request : Body} {answer : Option Body}

theorem transcript_cons (h : exchanged? entry = some (request, answer)) :
    transcript (entry :: log) = (request, answer) :: log.transcript :=
  List.filterMap_cons_some h

theorem Disciplined.cons (h : log.Disciplined) (he : exchanged? entry = some (request, answer))
    (hp : log.transcript.Proper request) : Disciplined (entry :: log) := by
  refine ⟨List.forall_mem_cons.2 ⟨by rw [he]; rfl, h.1⟩, ?_⟩
  rw [transcript_cons he]
  exact ⟨hp, h.2⟩

end Wire

end NineP
