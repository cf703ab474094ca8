import NineP.Fault
import NineP.MessageType
import NineP.Text.Quoted

/-!
# Misuse

What a caller can ask for that is refused before anything is sent.
-/

namespace NineP

/-- A reason to refuse a request of the caller. -/
inductive Misuse where
  | notAFile (path : String)
  | notADirectory (path : String)
  | notALink (path : String)
  | emptyPath
  /-- A directory goes back to its start only. -/
  | directoryPosition (position : UInt64)
  /-- A proposed message size is too small. -/
  | msize (msize : UInt32)
  /-- A configured message size is too small. -/
  | msizeBelow (msize least : UInt32)
  | emptyUserName
  | zeroTimeout
  /-- A required setting is missing. -/
  | unset (name : String)
  /-- A setting is not a number of its range. -/
  | badNumber (name value : String)
  | badIPv4 (value : String)
  | badPort (value : String)
  | badAddress (value : String)
  /-- Only requests can be sent. -/
  | notARequest (type : MessageType)
  /-- A request cannot be written. -/
  | unwritable (fault : Fault)
  /-- A request does not fit the message size. -/
  | requestTooLong (type : MessageType) (length : Nat) (msize : UInt32)
  /-- The transport is connected and cannot be directed elsewhere. -/
  | alreadyConnected
  /-- Any other reason, as its reporter words it. -/
  | reported (text : String)
  deriving DecidableEq, Repr

namespace Misuse

def message : Misuse → String
  | notAFile path => s!"{Text.quoted path} is not a file"
  | notADirectory path => s!"{Text.quoted path} is not a directory"
  | notALink path => s!"{Text.quoted path} is not a link"
  | emptyPath => "empty path"
  | directoryPosition position => s!"directory position {position}"
  | msize n => s!"msize {n}"
  | msizeBelow n least => s!"msize {n} is below {least}"
  | emptyUserName => "empty user name"
  | zeroTimeout => "zero timeout"
  | unset name => s!"{name} is not set"
  | badNumber name value => s!"{name}={Text.quoted value}"
  | badIPv4 value => s!"IPv4 address {Text.quoted value}"
  | badPort value => s!"port in {Text.quoted value}"
  | badAddress value => s!"address {Text.quoted value}"
  | notARequest type => s!"{type.name} is not a request"
  | unwritable fault => fault.message
  | requestTooLong type length limit => s!"{type.name} needs {length} bytes, msize is {limit}"
  | alreadyConnected => "transport already connected"
  | reported text => text

end Misuse

end NineP
