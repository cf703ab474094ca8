import NineP.Address.Dial
import NineP.Address.IPv4
import NineP.Address.IPv6
import NineP.Address.Socket
import NineP.Attributes
import NineP.Bytes
import NineP.Calendar
import NineP.CommandLine
import NineP.Config
import NineP.Dialogue
import NineP.DirEntry
import NineP.Error
import NineP.Exchange
import NineP.Fault
import NineP.FaultKind
import NineP.FidSource
import NineP.Frame
import NineP.Frame.Splitter
import NineP.Handle
import NineP.Info
import NineP.Listing
import NineP.Main
import NineP.Message
import NineP.MessageType
import NineP.Misuse
import NineP.Path
import NineP.Program
import NineP.Qid
import NineP.Reliance
import NineP.Resolve
import NineP.Session
import NineP.Size
import NineP.Text.Blank
import NineP.Text.Invisible
import NineP.Text.Numeral
import NineP.Text.Quoted
import NineP.Text.Split
import NineP.Text.Utf8
import NineP.Volume
import NineP.Wire.BoundedText
import NineP.Wire.Chain
import NineP.Wire.Codec
import NineP.Wire.Message
import NineP.Wire.Reader
import NineP.Wire.Sink
import NineP.Wire.Values
import NineP.World.Connection
import NineP.World.Loopback
import NineP.World.Scripted
import NineP.Proofs.Wire.Carries
import NineP.Proofs.Wire.Values
import NineP.Proofs.Frame.RoundTrip
import NineP.Proofs.Dialogue.Runs
import NineP.Proofs.World.Peer
import NineP.Proofs.Exchange.Reassembly
import NineP.Proofs.Session.Runs
import NineP.Proofs.Frame.Header
import NineP.Proofs.Session.Transaction
import NineP.Proofs.Session.Operation
import NineP.Proofs.Session.Matching
import NineP.Proofs.World.Serving
import NineP.Proofs.Session.Asked
import NineP.Proofs.Volume.Balance
import NineP.Proofs.Volume.Resolve
import NineP.Proofs.Handle.Runs
import NineP.Proofs.Volume.Handles
import NineP.Proofs.Volume.Mounting
import NineP.Proofs.Volume.Visits
import NineP.Proofs.Wire.Canonical
import NineP.Proofs.Frame.Canonical
import NineP.Proofs.World.Prompt
import NineP.Proofs.Session.Heard
import NineP.Proofs.Session.Conversation
import NineP.Proofs.Handle.Opening
import NineP.Proofs.Handle.Reading
import NineP.Proofs.Handle.Enumeration
import NineP.Proofs.World.Tree
import NineP.Proofs.Volume.Walking
import NineP.Proofs.Session.Query
import NineP.Proofs.Session.Verdict
import NineP.Proofs.Session.Alignment
import NineP.Proofs.World.Wire
import NineP.Proofs.World.Discipline
import NineP.Proofs.Session.Record
import NineP.Proofs.Session.Negotiated
import NineP.Proofs.Volume.Custody
import NineP.Proofs.Volume.Keeping
import NineP.Proofs.Volume.Stays
import NineP.Proofs.Wire.Delimited
import NineP.Proofs.Session.Meaning
import NineP.Proofs.World.Scripted
import NineP.Proofs.Volume.Itinerary
import NineP.Proofs.Strict.Agreement
import NineP.Proofs.Strict.Session
import NineP.Proofs.Strict.Handle
import NineP.Proofs.Strict.Volume
import NineP.Proofs.Frame.Chunks
import NineP.Proofs.World.Trace
import NineP.Proofs.Volume.Lifecycle
import NineP.Proofs.Session.Refused
import NineP.Proofs.Handle.Conduct
import NineP.Proofs.Volume.Conduct
import NineP.Proofs.Volume.Refusals
import NineP.Proofs.Volume.Sources
import NineP.Proofs.Frame.Limit
import NineP.Proofs.Wire.Misread
import NineP.Proofs.Session.Target
import NineP.Proofs.World.Tapped
import NineP.Proofs.Program.Stages
import NineP.Proofs.Program.Cleanup
import NineP.Proofs.Text.Order
import NineP.Proofs.World.Console
import NineP.Proofs.Volume.Quiet
import NineP.Proofs.Session.Replied
import NineP.Proofs.Volume.Admission
import NineP.Proofs.Handle.Inventory
import NineP.Proofs.Program.Output
import NineP.Proofs.Program.Faithful
import NineP.Proofs.Path.Names
import NineP.Proofs.Frame.Whole
import NineP.Proofs.Session.Bounded
import NineP.Proofs.World.Exclusive
import NineP.Proofs.Volume.Landing
import NineP.Proofs.Volume.Naming
import NineP.Proofs.FidSource.Cycle
import NineP.Proofs.Path.LastName
import NineP.Proofs.Handle.Identity
import NineP.Proofs.Volume.Titles
import NineP.Proofs.Handle.Links
import NineP.Proofs.Text.Numerals
import NineP.Proofs.Address.Written
import NineP.Proofs.Config.Variables
import NineP.Proofs.Wire.Tells
import NineP.Proofs.Wire.Bounded
import NineP.Proofs.Wire.Tally
import NineP.Proofs.Size.Rounding
import NineP.Proofs.Size.Shown
import NineP.Proofs.Size.Fitting
import NineP.Proofs.Address.Literals
import NineP.Proofs.Wire.Records
