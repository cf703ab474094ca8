import NineP.Bytes

/-!
# Texts as bytes

A text is a string of Unicode characters; on the wire it is the UTF-8 encoding
of that string.

* `ofBytes?_toBytes`: a text reads back from its own bytes;
* `toBytes_of_ofBytes?`: only the bytes of a text read as that text.
-/

namespace NineP.Text

/-- The UTF-8 bytes of a text. -/
def toBytes (s : String) : Bytes := s.toUTF8.data.toList

/-- The text of some bytes, if they are the encoding of one. -/
def ofBytes? (bs : Bytes) : Option String := String.fromUTF8? ⟨bs.toArray⟩

@[simp] theorem length_toBytes (s : String) : (toBytes s).length = s.utf8ByteSize := rfl

@[simp] theorem ofBytes?_toBytes (s : String) : ofBytes? (toBytes s) = some s := by
  have h : (⟨(toBytes s).toArray⟩ : ByteArray) = s.toUTF8 := by simp [toBytes]
  rw [ofBytes?, h]
  exact dif_pos s.isValidUTF8

/-- A row of one character takes as often its bytes. -/
theorem utf8ByteSize_replicate (n : Nat) (c : Char) :
    (String.ofList (List.replicate n c)).utf8ByteSize = n * c.utf8Size := by
  induction n with
  | zero => simp
  | succ n ih =>
    rw [List.replicate_succ, ← List.singleton_append, String.ofList_append,
      String.utf8ByteSize_append, ih, ← String.singleton_eq_ofList,
      String.utf8ByteSize_singleton, Nat.succ_mul, Nat.add_comm]

theorem toBytes_of_ofBytes? {bs : Bytes} {s : String} (h : ofBytes? bs = some s) :
    toBytes s = bs := by
  simp only [ofBytes?, String.fromUTF8?] at h
  split at h
  · cases h
    simp [toBytes, String.fromUTF8]
  · cases h

end NineP.Text
