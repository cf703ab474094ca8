/-!
# Message types

The numbers that tell the messages of the protocol apart. Requests have even
numbers, and a response's number is its request's plus one; the error response
answers every request and the error request is never sent.

* `ofId?_id`, `id_of_ofId?`: numbers and types correspond;
* `id_response`: the number of a response is its request's plus one;
* `isResponse_response`: what answers a request is a response.
-/

namespace NineP

/-- The types of the messages a read-only client needs. -/
inductive MessageType where
  | tlerror
  | rlerror
  | tstatfs
  | rstatfs
  | tlopen
  | rlopen
  | treadlink
  | rreadlink
  | tgetattr
  | rgetattr
  | treaddir
  | rreaddir
  | tversion
  | rversion
  | tattach
  | rattach
  | twalk
  | rwalk
  | tread
  | rread
  | tclunk
  | rclunk
  deriving DecidableEq, Repr

namespace MessageType

/-- The number of a type on the wire. -/
def id : MessageType → UInt8
  | tlerror => 6
  | rlerror => 7
  | tstatfs => 8
  | rstatfs => 9
  | tlopen => 12
  | rlopen => 13
  | treadlink => 22
  | rreadlink => 23
  | tgetattr => 24
  | rgetattr => 25
  | treaddir => 40
  | rreaddir => 41
  | tversion => 100
  | rversion => 101
  | tattach => 104
  | rattach => 105
  | twalk => 110
  | rwalk => 111
  | tread => 116
  | rread => 117
  | tclunk => 120
  | rclunk => 121

/-- The type of a number. -/
def ofId? : UInt8 → Option MessageType
  | 6 => some tlerror
  | 7 => some rlerror
  | 8 => some tstatfs
  | 9 => some rstatfs
  | 12 => some tlopen
  | 13 => some rlopen
  | 22 => some treadlink
  | 23 => some rreadlink
  | 24 => some tgetattr
  | 25 => some rgetattr
  | 40 => some treaddir
  | 41 => some rreaddir
  | 100 => some tversion
  | 101 => some rversion
  | 104 => some tattach
  | 105 => some rattach
  | 110 => some twalk
  | 111 => some rwalk
  | 116 => some tread
  | 117 => some rread
  | 120 => some tclunk
  | 121 => some rclunk
  | _ => none

/-- The name of a type in messages to the user. -/
def name : MessageType → String
  | tlerror => "TlError"
  | rlerror => "RlError"
  | tstatfs => "TStatFs"
  | rstatfs => "RStatFs"
  | tlopen => "TlOpen"
  | rlopen => "RlOpen"
  | treadlink => "TReadLink"
  | rreadlink => "RReadLink"
  | tgetattr => "TGetAttr"
  | rgetattr => "RGetAttr"
  | treaddir => "TReadDir"
  | rreaddir => "RReadDir"
  | tversion => "TVersion"
  | rversion => "RVersion"
  | tattach => "TAttach"
  | rattach => "RAttach"
  | twalk => "TWalk"
  | rwalk => "RWalk"
  | tread => "TRead"
  | rread => "RRead"
  | tclunk => "TClunk"
  | rclunk => "RClunk"

def isResponse : MessageType → Bool
  | rlerror | rstatfs | rlopen | rreadlink | rgetattr | rreaddir | rversion | rattach | rwalk
  | rread | rclunk => true
  | _ => false

def isRequest (t : MessageType) : Bool := !t.isResponse

/-- The type of the response that grants a request. -/
def response? : MessageType → Option MessageType
  | tstatfs => some rstatfs
  | tlopen => some rlopen
  | treadlink => some rreadlink
  | tgetattr => some rgetattr
  | treaddir => some rreaddir
  | tversion => some rversion
  | tattach => some rattach
  | twalk => some rwalk
  | tread => some rread
  | tclunk => some rclunk
  | _ => none

@[simp] theorem ofId?_id (t : MessageType) : ofId? t.id = some t := by
  cases t <;> rfl

theorem id_of_ofId? {n : UInt8} {t : MessageType} (h : ofId? n = some t) : t.id = n := by
  unfold ofId? at h
  split at h <;> first | (cases h; rfl) | cases h

theorem id_injective {s t : MessageType} (h : s.id = t.id) : s = t := by
  have := ofId?_id s
  rw [h, ofId?_id] at this
  exact (Option.some.inj this).symm

theorem id_response {t r : MessageType} (h : t.response? = some r) : r.id = t.id + 1 := by
  cases t <;> cases h <;> rfl

theorem isResponse_response {t r : MessageType} (h : t.response? = some r) :
    t.isRequest = true ∧ r.isResponse = true := by
  cases t <;> cases h <;> exact ⟨rfl, rfl⟩

theorem ne_rlerror_of_response {t r : MessageType} (h : t.response? = some r) : r ≠ rlerror := by
  rintro rfl
  cases t <;> cases h

end MessageType

end NineP
