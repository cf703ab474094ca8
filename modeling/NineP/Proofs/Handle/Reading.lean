import NineP.Proofs.Handle.Opening

/-!
# Reading a file in pieces

A read asks for no more than fits a message, and the server may give less than
was asked for, as little as one byte at a time. So a read takes any number of
requests, and any of them may fail:

* `Replies.file`: what a server may answer to reads of a file;
* `HandleClient.Always.readFrom_file`: whatever the pieces, the bytes read so far
  are those from the start on, and the position is where they end;
* `Handle.Reads.contiguous`: reads that follow each other give out the file without
  gap or repetition, whichever of them fail;
* `Handle.reads_contiguous`: and each of them gives out all that the file has of
  what was wanted, or leaves the position as it was.
-/

namespace NineP

/-- The replies of a server that a file of this content is read from: as many of
the bytes at the offset as it likes, and none only at the end of the file. -/
def Replies.file (content : Bytes) : Replies := .orError fun request reply =>
  ∀ fid offset count, request = .tread fid offset count →
    ∃ data, reply = .rread data ∧ data.length ≤ count.toNat ∧
      data = (content.drop offset.toNat).take data.length ∧
      (data = [] → content.length ≤ offset.toNat)

open Session

/-- What the server gives for a read is a piece of the file. -/
theorem Client.Always.read_file {msize : UInt32} {s : Session} {p : Peer} (content : Bytes)
    (hs : Settled msize s p) (fid : UInt32) (offset : UInt64) (count : UInt32) :
    Always (Peer.Step (.prompt msize (.file content))) (Session.read fid offset count) s p
      fun r t q => t = s ∧ Talked msize p r s q ∧ ∀ data, r = .ok data →
        data.length ≤ count.toNat ∧ data = (content.drop offset.toNat).take data.length ∧
          (data = [] → content.length ≤ offset.toNat) := by
  have hpiece : ∀ answer, (Replies.file content).allowed (Peer.said p.log)
      (.tread fid offset (min count s.readCeiling)) answer → answer.type = .rread →
      ∃ data, answer = .rread data ∧ data.length ≤ (min count s.readCeiling).toNat ∧
        data = (content.drop offset.toNat).take data.length ∧
        (data = [] → content.length ≤ offset.toNat) := by
    intro answer ha ht
    rcases ha with ⟨ecode, rfl⟩ | ha
    · cases ht
    · exact ha fid offset _ rfl
  refine (Operation.talked _ (.read fid offset count) (Session.read fid offset count) rfl hs
    (Operation.fits_of_short rfl (hs.agreed ▸ hs.least)) rfl fun answer ha ht => ?_).mono
    fun r t q ⟨ht, htalked, hok⟩ => ⟨ht, htalked, fun data hr => ?_⟩
  · obtain ⟨data, rfl, hlen, -⟩ := hpiece answer ha ht
    exact if_neg (Nat.not_lt.2 hlen)
  · obtain ⟨data', hdata, hlen, hrest⟩ := hpiece _ (hok data hr).2 rfl
    obtain rfl := Body.rread.inj hdata
    refine ⟨Nat.le_trans hlen ?_, hrest⟩
    show (if count ≤ s.readCeiling then count else s.readCeiling).toNat ≤ count.toNat
    split
    · exact Nat.le_refl _
    · rename_i hlt
      exact Nat.le_of_not_le fun hle => hlt (UInt32.le_iff_toNat_le.2 hle)

namespace Handle

/-- What comes of a read of `n` bytes from `start` on: all that the file has of
them, with the position behind them, or a failure with the position back at
`start`. -/
structure Slice (msize : UInt32) (content : Bytes) (start : UInt64) (n : Nat) (p : Peer)
    (r : Except Error Bytes) (g : Handle) (t : Session) (q : Peer) : Prop where
  talked : Talked msize p r t q
  kind : g.kind = .regular
  ok : ∀ bytes, r = .ok bytes → bytes = (content.drop start.toNat).take n ∧
    g.position.toNat = start.toNat + bytes.length
  error : ∀ e, r = .error e → g.position = start

/-- What was said before belongs to it as well. -/
theorem Slice.after {msize : UInt32} {content : Bytes} {start : UInt64} {n : Nat} {p q q' : Peer}
    {r : Except Error Bytes} {g : Handle} {s t : Session} {a : α}
    (h : Slice msize content start n q r g t q') (ht : Talked msize p (.ok a : Except Error α) s q) :
    Slice msize content start n p r g t q' where
  talked := h.talked.after ht
  kind := h.kind
  ok := h.ok
  error := h.error

/-- The bytes in `acc`, the last first, are those from `start` on, and the position
is behind them. -/
structure Filled (content : Bytes) (start : UInt64) (acc : Bytes) (h : Handle) : Prop where
  kind : h.kind = .regular
  bytes : acc.reverse = (content.drop start.toNat).take acc.length
  position : h.position.toNat = start.toNat + acc.length

namespace Filled

variable {content acc data : Bytes} {start : UInt64} {h : Handle}

/-- The bytes at the position are the next ones. -/
theorem piece (hf : Filled content start acc h)
    (hdata : data = (content.drop h.position.toNat).take data.length)
    (hroom : start.toNat + (acc.length + data.length) < 2 ^ 64) :
    Filled content start (data.reverseAux acc)
      { h with position := h.position + UInt64.ofNat data.length } where
  kind := hf.kind
  bytes := by
    have hlen : (data.reverseAux acc).length = acc.length + data.length := by
      rw [List.reverseAux_eq, List.length_append, List.length_reverse, Nat.add_comm]
    rw [hlen, List.reverseAux_eq, List.reverse_append, List.reverse_reverse, hf.bytes,
      List.take_add, List.drop_drop, ← hf.position, ← hdata]
  position := by
    have hsmall : (UInt64.ofNat data.length).toNat = data.length :=
      UInt64.toNat_ofNat_of_lt' (by show _ < 2 ^ 64; omega)
    have hsum : (h.position + UInt64.ofNat data.length).toNat =
        h.position.toNat + data.length := by
      rw [UInt64.toNat_add, hsmall, hf.position, Nat.mod_eq_of_lt (by omega)]
    show (h.position + UInt64.ofNat data.length).toNat = _
    rw [hsum, hf.position, List.reverseAux_eq, List.length_append, List.length_reverse]
    omega

/-- Nothing more is read if the file has no more of what is wanted. -/
theorem slice {msize : UInt32} {wanted : Nat} {p q : Peer} {s : Session}
    (hf : Filled content start acc h) (ht : Talked msize p (.ok () : Except Error Unit) s q)
    (hend : wanted = 0 ∨ content.length ≤ h.position.toNat) :
    Slice msize content start (acc.length + wanted) p (.ok acc.reverse) h s q := by
  refine ⟨ht.ok _, hf.kind, fun bytes hr => ?_, fun e he => by cases he⟩
  obtain rfl := Except.ok.inj hr
  refine ⟨?_, by rw [hf.position, List.length_reverse]⟩
  rw [hf.bytes]
  rcases hend with hwanted | hend
  · rw [hwanted, Nat.add_zero]
  · have hshort : (content.drop start.toNat).length ≤ acc.length := by
      have hposition := hf.position
      rw [List.length_drop]
      omega
    rw [List.take_of_length_le hshort, List.take_of_length_le (by omega)]

end Filled

end Handle

namespace HandleClient.Always

open Handle

variable {msize : UInt32} {content : Bytes} {h : Handle} {s : Session} {p : Peer}

/-- The bytes in `acc` are those from `start` on, and each piece keeps it so. As no
piece is empty, it takes from what is wanted at least what it takes from the
fuel. No offset is beyond the last one, either of what is wanted or of the file. -/
theorem readFrom_file (fid : UInt32) {start : UInt64} {fuel wanted : Nat} {acc : Bytes}
    (hs : Settled msize s p) (hf : Filled content start acc h) (hfuel : wanted ≤ fuel)
    (hroom : start.toNat + (acc.length + wanted) < 2 ^ 64 ∨ content.length < 2 ^ 64) :
    Always (Peer.Step (.prompt msize (.file content))) (readFrom fid start fuel wanted acc) h s p
      (Slice msize content start (acc.length + wanted) p) := by
  induction fuel generalizing wanted acc h s p with
  | zero =>
    obtain rfl : wanted = 0 := Nat.le_zero.1 hfuel
    exact pure (hf.slice (.refl hs) (.inl rfl))
  | succ fuel ih =>
    cases wanted with
    | zero => exact pure (hf.slice (.refl hs) (.inl rfl))
    | succ wanted =>
      let count := UInt32.ofNat (min s.readCeiling.toNat (wanted + 1))
      have hcount : count.toNat ≤ wanted + 1 := by
        have hlt : s.readCeiling.toNat < 2 ^ 32 := s.readCeiling.toNat_lt
        show (UInt32.ofNat (min s.readCeiling.toNat (wanted + 1))).toNat ≤ wanted + 1
        rw [UInt32.toNat_ofNat_of_lt' (by show _ < 2 ^ 32; omega)]
        exact Nat.min_le_right ..
      have hread := Client.Always.read_file content hs fid h.position count
      refine get_bind (session_bind (ofClient_bind_of_yields hread.attempt
        fun r t q ⟨ht, htalked, hpiece⟩ => ?_))
      subst ht
      cases r with
      | error e =>
        refine set_bind (throw ⟨htalked.error e, hf.kind, fun bytes hr => ?_, fun _ _ => rfl⟩)
        cases hr
      | ok data =>
        obtain ⟨hlen, hdata, hend⟩ := hpiece data rfl
        cases data with
        | nil => exact pure (hf.slice (htalked.ok ()) (.inr (hend rfl)))
        | cons byte bytes =>
          have hpos : 0 < (byte :: bytes).length := Nat.succ_pos _
          have hwanted : (byte :: bytes).length ≤ wanted + 1 := Nat.le_trans hlen hcount
          have htotal : ((byte :: bytes).reverseAux acc).length =
              acc.length + (byte :: bytes).length := by
            rw [List.reverseAux_eq, List.length_append, List.length_reverse, Nat.add_comm]
          have hleft : ((byte :: bytes).reverseAux acc).length +
              (wanted + 1 - (byte :: bytes).length) = acc.length + (wanted + 1) := by omega
          have hless : wanted + 1 - (byte :: bytes).length ≤ fuel := by omega
          have hpiece : start.toNat + (acc.length + (byte :: bytes).length) < 2 ^ 64 := by
            have hposition := hf.position
            have hwithin := congrArg List.length hdata
            rw [List.length_take, List.length_drop] at hwithin
            omega
          have hmore := ih htalked.settled (hf.piece hdata hpiece) hless (by omega)
          rw [hleft] at hmore
          exact .relies (set_bind (hmore.mono fun r g t q' hslice => hslice.after htalked))

/-- A read of a file, from any position on. -/
theorem readData_within (content : Bytes) {n : Nat} (hs : Settled msize s p)
    (hk : h.kind = .regular)
    (hroom : h.position.toNat + n < 2 ^ 64 ∨ content.length < 2 ^ 64) :
    Always (Peer.Step (.prompt msize (.file content))) (readData n) h s p
      (Slice msize content h.position n p) := by
  refine get_bind (.refuse (fun hne => absurd hk hne) fun _ => ?_)
  have hdir : h.kind ≠ .directory := by
    rw [hk]
    decide
  refine (opened hs fun hd => absurd hd hdir).bind (fun fid g t q hopened => ?_)
    fun e g t q hopened => ?_
  · obtain ⟨htalked, ⟨qid, iounit, ioFid, rfl⟩, -⟩ := hopened
    refine get_bind ?_
    have hempty : Filled content h.position []
        { h with location := { h.location with qid }, iounit, ioFid } := ⟨hk, rfl, rfl⟩
    have hfrom := readFrom_file fid htalked.settled hempty (Nat.le_refl n)
      (by rwa [List.length_nil, Nat.zero_add])
    rw [List.length_nil, Nat.zero_add] at hfrom
    exact hfrom.mono fun r g t q hslice => hslice.after htalked
  · obtain ⟨htalked, ⟨qid, iounit, ioFid, rfl⟩, -⟩ := hopened
    exact ⟨htalked.error e, hk, fun _ hr => (by cases hr), fun _ _ => rfl⟩

theorem readData_file (content : Bytes) {n : Nat} (hs : Settled msize s p) (hk : h.kind = .regular)
    (hroom : h.position.toNat + n < 2 ^ 64) :
    Always (Peer.Step (.prompt msize (.file content))) (readData n) h s p
      (Slice msize content h.position n p) :=
  readData_within content hs hk (.inl hroom)

end HandleClient.Always

namespace Handle

/-! ## Reads that follow each other -/

/-- Reads of a handle that follow each other, each with room for some number of
bytes, with what came of them. -/
inductive Reads (M : Manners) (h : Handle) (s : Session) (p : Peer) :
    List (Except Error Bytes) → Handle → Session → Peer → Prop where
  | none : Reads M h s p [] h s p
  | read {results : List (Except Error Bytes)} {r : Except Error Bytes} {n : Nat} {g g' : Handle}
    {t t' : Session} {q q' : Peer} : Reads M h s p results g t q → g.position.toNat + n < 2 ^ 64 →
    (readData n).Runs (Peer.Step M) g t q r g' t' q' → Reads M h s p (results ++ [r]) g' t' q'

/-- The bytes that reads have given out, those that failed none. -/
def given (results : List (Except Error Bytes)) : Bytes :=
  results.flatMap fun r => r.toOption.getD []

theorem given_append (results : List (Except Error Bytes)) (r : Except Error Bytes) :
    given (results ++ [r]) = given results ++ r.toOption.getD [] := by
  simp [given]

variable {msize : UInt32} {content : Bytes} {h : Handle} {s : Session} {p : Peer}

/-- Each read goes on where the last one that succeeded has stopped. -/
theorem Reads.contiguous {results : List (Except Error Bytes)} {g : Handle} {t : Session} {q : Peer}
    (hr : Reads (.prompt msize (.file content)) h s p results g t q) (hs : Settled msize s p)
    (hk : h.kind = .regular) :
    Settled msize t q ∧ g.kind = .regular ∧
      given results = (content.drop h.position.toNat).take (given results).length ∧
      g.position.toNat = h.position.toNat + (given results).length := by
  induction hr with
  | none => exact ⟨hs, hk, rfl, rfl⟩
  | @read results r n g g' t t' q q' _ hroom hrun ih =>
    obtain ⟨hsettled, hkind, hbytes, hposition⟩ := ih
    have hslice := (HandleClient.Always.readData_file content hsettled hkind
      hroom).of_runs hrun
    refine ⟨hslice.talked.settled, hslice.kind, ?_⟩
    rw [given_append]
    cases r with
    | error e =>
      have hnone : (Except.error e : Except Error Bytes).toOption.getD [] = [] := rfl
      rw [hnone, List.append_nil, hslice.error e rfl]
      exact ⟨hbytes, hposition⟩
    | ok bytes =>
      obtain ⟨hpiece, hmoved⟩ := hslice.ok bytes rfl
      have hsome : (Except.ok bytes : Except Error Bytes).toOption.getD [] = bytes := rfl
      rw [hsome, List.length_append, List.take_add, ← hbytes, List.drop_drop, ← hposition]
      constructor
      · congr 1
        rw [hpiece, List.length_take, ← List.take_eq_take_min]
      · rw [hmoved, hposition, Nat.add_assoc]

/-- A read gives out all that the file has of the bytes that it was to read, in
whatever pieces they come, and none of its requests asks for more than fits a
message; or it fails, as the server has reported an error, and the position is
what it was. So reads that follow each other give out one piece of the file
between them, whichever of them fail. -/
theorem reads_contiguous (content : Bytes) (hs : Settled msize s p) (hk : h.kind = .regular) :
    (∀ n, h.position.toNat + n < 2 ^ 64 →
      (∃ r g t q,
        (readData n).Runs (Peer.Step (.prompt msize (.file content))) h s p r g t q) ∧
      ∀ r g t q, (readData n).Runs (Peer.Step (.prompt msize (.file content))) h s p r g t q →
        ((∃ bytes, r = .ok bytes ∧ bytes = (content.drop h.position.toNat).take n ∧
            bytes.length = min n (content.length - h.position.toNat) ∧
            g.position.toNat = h.position.toNat + bytes.length) ∨
          ∃ e, r = .error e ∧ g.position = h.position) ∧
        ∃ said, Peer.said q.log = said ++ Peer.said p.log ∧
          (∀ fid offset count answer, (.tread fid offset count, answer) ∈ said →
            count.toNat ≤ msize.toNat - 24) ∧
          ∀ e, r = .error e → ∃ request ecode, (request, .rlerror ecode) ∈ said) ∧
    ∀ results g t q, Reads (.prompt msize (.file content)) h s p results g t q →
      given results = (content.drop h.position.toNat).take (given results).length ∧
        g.position.toNat = h.position.toNat + (given results).length := by
  refine ⟨fun n hroom => ⟨HandleClient.Runs.total (Peer.Step.total _) _ h s p, fun r g t q hrun => ?_⟩,
    fun results g t q hr => (hr.contiguous hs hk).2.2⟩
  have hslice := (HandleClient.Always.readData_file content hs hk hroom).of_runs hrun
  obtain ⟨said, hsaid, hasks, hfails⟩ := hslice.talked.said
  refine ⟨?_, said, hsaid, fun fid offset count answer hx => hasks _ answer hx, hfails⟩
  cases r with
  | ok bytes =>
    obtain ⟨hbytes, hposition⟩ := hslice.ok bytes rfl
    refine .inl ⟨bytes, rfl, hbytes, ?_, hposition⟩
    rw [hbytes, List.length_take, List.length_drop]
  | error e => exact .inr ⟨e, rfl, hslice.error e rfl⟩

/-- A handle on a file that has been opened, behind its first byte. -/
def secondByte : Handle :=
  { Handle.fresh ⟨1, {}⟩ ⟨2, {}⟩ "/f" with position := 1, ioFid := some 2 }

/-- A server that gives one byte of three at a time. -/
def oneByOne (_ : List (Body × Body)) : Body → Body
  | .tread _ offset count =>
    if count = 0 then .rlerror 22 else .rread (([10, 20, 30].drop offset.toNat).take 1)
  | _ => .rlerror 95

theorem served_oneByOne : (Replies.file [10, 20, 30]).Served oneByOne := by
  intro said request
  cases request with
  | tread fid offset count =>
    show (Replies.file _).Gives said _ (if count = 0 then _ else _)
    split
    · exact Replies.gives_rlerror said _ 22
    · rename_i hc
      have hcount : 1 ≤ count.toNat := Nat.pos_of_ne_zero fun h0 => hc (UInt32.toNat_inj.1 h0)
      have hlen := List.length_take_le 1 (([10, 20, 30] : Bytes).drop offset.toNat)
      refine Replies.gives_of_allowed said (Body.isShort_of_size (fun _ hs => by cases hs) ?_ rfl rfl)
        rfl fun fid' offset' count' hr => ?_
      · exact Nat.le_trans (Nat.add_le_add_left hlen 4) (Nat.le_of_ble_eq_true rfl)
      · obtain ⟨rfl, rfl, rfl⟩ := Body.tread.inj hr
        refine ⟨_, rfl, Nat.le_trans hlen hcount, ?_, fun hnil => ?_⟩
        · rw [List.length_take, ← List.take_eq_take_min]
        · have hnone := congrArg List.length hnil
          rw [List.length_take, List.length_drop, List.length_nil] at hnone
          omega
  | _ => exact Replies.gives_rlerror said _ 95

/-- The bytes behind the first of three come one by one. -/
theorem reads_contiguous_one_by_one :
    Settled 8192 { msize := 8192 } {} ∧ secondByte.kind = .regular ∧
      ∃ bytes g t q, (readData 2).Runs (Peer.Step (.prompt 8192 (.file [10, 20, 30]))) secondByte
          { msize := 8192 } {} (.ok bytes) g t q ∧
        bytes = (([10, 20, 30] : Bytes).drop 1).take 2 ∧ g.position.toNat = 1 + bytes.length := by
  have hs : Settled 8192 { msize := 8192 } {} := ⟨rfl, by decide, rfl⟩
  obtain ⟨q, hrun⟩ : ∃ q, (readData 2).Runs (Peer.Step (.prompt 8192 (.file [10, 20, 30])))
      secondByte { msize := 8192 } {} (.ok [20, 30]) { secondByte with position := 3 }
      { msize := 8192 } q := served_oneByOne.exists_runs (by decide +kernel)
  have hread := ((reads_contiguous [10, 20, 30] hs (h := secondByte) rfl).1 2
    (by decide)).2 _ _ _ _ hrun
  obtain ⟨⟨bytes, hr, hbytes, -, hposition⟩ | ⟨e, he, -⟩, -⟩ := hread
  · obtain rfl := Except.ok.inj hr
    exact ⟨hs, rfl, _, _, _, _, hrun, hbytes, hposition⟩
  · cases he

end Handle

end NineP
