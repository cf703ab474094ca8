import NineP.Address.Dial
import NineP.Proofs.Text.Numerals

/-!
# Addresses as they are written

An address of version 4 is read back from its dotted form, and with a port from
`address:port`, whoever looks up the names of hosts. A server is also read back from
`tcp!address!port`:

* `IPv4.parse?_text`: dotted forms;
* `dialTarget?_colon`, `dialTarget?_dialText`: the two forms of a dial string, whatever
  the host;
* `parseDialBy_text`, `parseDialBy_dialText`: the same if the host is an address;
* `parseDialBy_of_mem_dialForms`: every way to write a server;
* `parseIPv4_of_padded`, `parseIPv4Address_of_padded`: addresses with white space around.
-/

namespace NineP

/-! ## Dotted forms -/

namespace IPv4

theorem octet?_toDigits : ∀ n < 256, octet? (Nat.toDigits 10 n) = some n := by decide +kernel

/-- An address is four numbers, and its dotted form their digits. -/
theorem exists_octets (a : IPv4) : ∃ w x y z, (w < 256 ∧ x < 256 ∧ y < 256 ∧ z < 256) ∧
    ofOctets w x y z = a ∧ a.text.toList = Nat.toDigits 10 w ++ '.' :: (Nat.toDigits 10 x ++
      '.' :: (Nat.toDigits 10 y ++ '.' :: Nat.toDigits 10 z)) := by
  have hlt : a.bits.toNat < 4294967296 := a.bits.toNat_lt
  refine ⟨a.bits.toNat / 0x1000000, a.bits.toNat / UInt16.size % 256,
    a.bits.toNat / UInt8.size % 256, a.bits.toNat % 256, ?_, ?_, ?_⟩
  · omega
  · have hbits : ((a.bits.toNat / 0x1000000 * 256 + a.bits.toNat / 65536 % 256) * 256 +
        a.bits.toNat / 256 % 256) * 256 + a.bits.toNat % 256 = a.bits.toNat := by omega
    rw [ofOctets, hbits, UInt32.ofNat_toNat]
  · simp [text, octets, Nat.toList_repr]

/-- An address is read back from its dotted form. -/
theorem parse?_text (a : IPv4) : parse? a.text = some a := by
  obtain ⟨w, x, y, z, ⟨hw, hx, hy, hz⟩, ha, htext⟩ := exists_octets a
  have hdot (n : Nat) : ∀ c ∈ Nat.toDigits 10 n, decide (c = '.') = false := fun c hc =>
    decide_eq_false fun h => Text.not_mem_toDigits rfl n (h ▸ hc)
  have hsep : decide ('.' = '.') = true := rfl
  have hparts : Text.splitAll (· = '.') a.text.toList =
      [Nat.toDigits 10 w, Nat.toDigits 10 x, Nat.toDigits 10 y, Nat.toDigits 10 z] := by
    rw [htext, Text.splitAll_append_cons hsep, Text.splitAll_append_cons hsep,
      Text.splitAll_append_cons hsep, Text.splitAll_of_forall (hdot w),
      Text.splitAll_of_forall (hdot x), Text.splitAll_of_forall (hdot y),
      Text.splitAll_of_forall (hdot z)]
    rfl
  rw [parse?, ofChars?, hparts]
  simp only [List.map_cons, List.map_nil, octet?_toDigits w hw, octet?_toDigits x hx,
    octet?_toDigits y hy, octet?_toDigits z hz, ha]

/-- There are digits and dots in a dotted form, and nothing else. -/
theorem isDigit_or_of_mem_text {a : IPv4} {c : Char} (h : c ∈ a.text.toList) :
    c.isDigit = true ∨ c = '.' := by
  obtain ⟨w, x, y, z, -, -, htext⟩ := exists_octets a
  have hdigit {n : Nat} (hc : c ∈ Nat.toDigits 10 n) : c.isDigit = true :=
    Text.isDigit_of_mem_toDigits c hc
  rw [htext] at h
  simp only [List.mem_append, List.mem_cons] at h
  rcases h with h | rfl | h | rfl | h | rfl | h
  · exact .inl (hdigit h)
  · exact .inr rfl
  · exact .inl (hdigit h)
  · exact .inr rfl
  · exact .inl (hdigit h)
  · exact .inr rfl
  · exact .inl (hdigit h)

theorem not_mem_text {c : Char} (hdigit : c.isDigit = false) (hdot : c ≠ '.') (a : IPv4) :
    c ∉ a.text.toList := fun hc => by
  rcases isDigit_or_of_mem_text hc with h | h
  · rw [hdigit] at h
    cases h
  · exact hdot h

theorem isWord_text (a : IPv4) : Text.IsWord a.text where
  ne_empty h := by
    have hparse := parse?_text a
    rw [h] at hparse
    cases hparse
  isBlank c hc := by
    rcases isDigit_or_of_mem_text hc with h | rfl
    · exact Text.isBlank_of_isDigit h
    · rfl

end IPv4

/-- An address is read back, white space around it aside. -/
theorem parseIPv4_of_padded {a : IPv4} {value : String} (h : Text.Padded a.text value) :
    parseIPv4 value = .ok a := by
  rw [parseIPv4, Text.trim_of_padded h (IPv4.isWord_text a), IPv4.parse?_text]

/-! ## Ports -/

variable {port : UInt16}

theorem readPort?_toString : readPort? (toString port.toNat) = some port := by
  have hmax : port.toNat ≤ 65535 := Nat.le_of_lt_succ port.toNat_lt
  rw [readPort?, Text.readNatural?_toString hmax, Option.map_some, UInt16.ofNat_toNat]

/-! ## Dial strings -/

/-- The form of a dial string with the protocol in front and exclamation marks in
between. -/
def dialText (host : String) (port : UInt16) : String :=
  "tcp!" ++ host ++ "!" ++ toString port.toNat

section

variable {host : String} (defaultPort : UInt16)

theorem toList_dialText : (dialText host port).toList =
    "tcp".toList ++ '!' :: (host.toList ++ '!' :: (toString port.toNat).toList) := by
  simp [dialText]

/-- No character of a row is an exclamation mark. -/
theorem forall_ne_mark {cs : List Char} (h : '!' ∉ cs) : ∀ c ∈ cs, decide (c = '!') = false :=
  fun _ hc => decide_eq_false fun hmark => h (hmark ▸ hc)

theorem splitDial?_eq_none {s : String} (h : '!' ∉ s.toList) : splitDial? s = none := by
  rw [splitDial?, Text.splitAll_of_forall (forall_ne_mark h)]
  rfl

/-- A host and its port are told apart at the last colon. -/
theorem dialTarget?_colon (h : '!' ∉ host.toList) :
    dialTarget? (host ++ ":" ++ toString port.toNat) defaultPort = some (host, port) := by
  have htext : (host ++ ":" ++ toString port.toNat).toList =
      host.toList ++ ':' :: (toString port.toNat).toList := by
    simp
  have hmark : '!' ∉ host.toList ++ ':' :: (toString port.toNat).toList := by
    rw [List.mem_append, List.mem_cons, not_or, not_or]
    exact ⟨h, by decide, Text.not_mem_toString rfl _⟩
  have hcolon : ':' ∉ (toString port.toNat).toList := Text.not_mem_toString rfl _
  have hnone := splitDial?_eq_none (htext ▸ hmark)
  simp only [dialTarget?, hnone, htext, Text.splitLast?_append_cons hcolon, String.ofList_toList,
    readPort?_toString, Option.map_some]

/-- The protocol, the host and its port are told apart at the exclamation marks. -/
theorem dialTarget?_dialText (h : '!' ∉ host.toList) :
    dialTarget? (dialText host port) defaultPort = some (host, port) := by
  have hsep : decide ('!' = '!') = true := rfl
  have hport : '!' ∉ (toString port.toNat).toList := Text.not_mem_toString rfl _
  have hparts : splitDial? (dialText host port) = some ("tcp", host, toString port.toNat) := by
    rw [splitDial?, toList_dialText, Text.splitAll_append_cons hsep,
      Text.splitAll_append_cons hsep, Text.splitAll_of_forall (forall_ne_mark (by decide)),
      Text.splitAll_of_forall (forall_ne_mark h), Text.splitAll_of_forall (forall_ne_mark hport)]
    simp only [List.singleton_append, List.map_cons, List.map_nil, String.ofList_toList]
  simp only [dialTarget?, hparts, if_true, readPort?_toString, Option.map_some]

end

section

variable {a : IPv4} (names : HostNames) (defaultPort : UInt16)

theorem hostAddress?_v4 {host : String} (h : IPv4.parse? host = some a) :
    hostAddress? names host port = some (.v4 a port) := by
  rw [hostAddress?, h]

/-- A server is read back from its address and its port. -/
theorem parseDialBy_text :
    parseDialBy names (SocketAddress.v4 a port).text defaultPort = .ok (.v4 a port) :=
  parseDialBy_eq_ok_iff.2 ⟨a.text, port,
    dialTarget?_colon defaultPort (IPv4.not_mem_text rfl (by decide) a),
    hostAddress?_v4 names (IPv4.parse?_text a)⟩

/-- A server is read back from the form with exclamation marks. -/
theorem parseDialBy_dialText :
    parseDialBy names (dialText a.text port) defaultPort = .ok (.v4 a port) :=
  parseDialBy_eq_ok_iff.2 ⟨a.text, port,
    dialTarget?_dialText defaultPort (IPv4.not_mem_text rfl (by decide) a),
    hostAddress?_v4 names (IPv4.parse?_text a)⟩

end

namespace SocketAddress

/-- An address of version 4, and not of version 6. -/
def IsV4 : SocketAddress → Prop
  | v4 _ _ => True
  | v6 _ _ _ => False

/-- The ways to write the server at an address as a dial string. The first one is for
addresses of version 4 alone, because there are colons in the others. -/
def dialForms : SocketAddress → List String
  | v4 address port => [(v4 address port).text, dialText address.text port]
  | v6 address port _ => [dialText address.text port]

end SocketAddress

section

variable {address : SocketAddress} {text : String}

/-- A server with an address of version 4 is read back from every way to write it. -/
theorem parseDialBy_of_mem_dialForms (h : address.IsV4) (htext : text ∈ address.dialForms)
    (names : HostNames) (defaultPort : UInt16) :
    parseDialBy names text defaultPort = .ok address := by
  cases address with
  | v6 _ _ _ => exact h.elim
  | v4 a port =>
    simp only [SocketAddress.dialForms, List.mem_cons, List.not_mem_nil, or_false] at htext
    rcases htext with rfl | rfl
    · exact parseDialBy_text names defaultPort
    · exact parseDialBy_dialText names defaultPort

/-! ## White space around addresses -/

theorem SocketAddress.isWord_text (a : IPv4) (port : UInt16) : Text.IsWord (v4 a port).text :=
  have hcolon : Text.IsWord ":" := by decide
  ((IPv4.isWord_text a).append hcolon).append (Text.isWord_toString _)

theorem isWord_dialText {host : String} (h : Text.IsWord host) (port : UInt16) :
    Text.IsWord (dialText host port) :=
  have hproto : Text.IsWord "tcp!" := by decide
  have hmark : Text.IsWord "!" := by decide
  ((hproto.append h).append hmark).append (Text.isWord_toString _)

theorem SocketAddress.isWord_of_mem_dialForms (h : address.IsV4)
    (htext : text ∈ address.dialForms) : Text.IsWord text := by
  cases address with
  | v6 _ _ _ => exact h.elim
  | v4 a port =>
    simp only [dialForms, List.mem_cons, List.not_mem_nil, or_false] at htext
    rcases htext with rfl | rfl
    · exact isWord_text a port
    · exact isWord_dialText (IPv4.isWord_text a) port

/-- An address and its port are read back, white space around them aside. -/
theorem parseIPv4Address_of_padded {a : IPv4} {value : String} (defaultPort : UInt16)
    (h : Text.Padded (SocketAddress.v4 a port).text value) :
    parseIPv4Address value defaultPort = .ok (a, port) := by
  have hcolon : ':' ∉ a.text.toList := IPv4.not_mem_text rfl (by decide) a
  have htext : (SocketAddress.v4 a port).text.toList =
      a.text.toList ++ ':' :: (toString port.toNat).toList := by
    simp [SocketAddress.text]
  rw [parseIPv4Address, Text.trim_of_padded h (SocketAddress.isWord_text a port), htext,
    Text.splitFirst?_append_cons hcolon]
  simp only [String.ofList_toList, readPort?_toString, parseIPv4_of_padded (.refl a.text)]
  rfl

end

end NineP
