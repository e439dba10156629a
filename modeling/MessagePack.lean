import MessagePack.Command.Run
import MessagePack.Main
import MessagePack.Proofs.Output
import MessagePack.Proofs.Splice
import MessagePack.Reader.Call
import MessagePack.Tree.Render
import MessagePack.Tree.Stream
import MessagePack.Value.Sample
import MessagePack.Proofs.Draft
import MessagePack.Proofs.Calls
import MessagePack.Proofs.Nesting
import MessagePack.Proofs.Encoding
import MessagePack.Proofs.Spelling
import MessagePack.Proofs.Grammar
import MessagePack.Proofs.Balance
import MessagePack.Proofs.Tracked
import MessagePack.Proofs.Buffering
import MessagePack.Proofs.Document
import MessagePack.Proofs.Reading
import MessagePack.Proofs.Arena
import MessagePack.Proofs.Parsing
import MessagePack.Proofs.Trees
import MessagePack.Proofs.Agreement
import MessagePack.Proofs.Scanning
import MessagePack.Proofs.Streaming
import MessagePack.Proofs.RoundTrip
import MessagePack.Proofs.Resumption
import MessagePack.Proofs.Limits
import MessagePack.Proofs.Arrival
import MessagePack.Proofs.Cursor
import MessagePack.Proofs.Backing
import MessagePack.Proofs.Foretold
import MessagePack.Proofs.Replay
import MessagePack.Proofs.Performed
import MessagePack.Proofs.Mirror
import MessagePack.Proofs.History
import MessagePack.Proofs.Sticky
import MessagePack.Proofs.Shortage
import MessagePack.Proofs.Truncation
import MessagePack.Proofs.Delivery
import MessagePack.Proofs.Untracked
import MessagePack.Proofs.Paging
import MessagePack.Proofs.Trace
import MessagePack.Proofs.Faithful
import MessagePack.Proofs.Elements
import MessagePack.Proofs.Narrow
import MessagePack.Proofs.Canonical
import MessagePack.Proofs.Levels
import MessagePack.Proofs.Confined
import MessagePack.Proofs.Ceiling
import MessagePack.Proofs.Representable
import MessagePack.Proofs.Misuse
import MessagePack.Proofs.Slots
import MessagePack.Proofs.TextOrder
import MessagePack.Proofs.Expressible
import MessagePack.Proofs.JsonValue
import MessagePack.Proofs.JsonTree
import MessagePack.Proofs.Interchange
import MessagePack.Proofs.Minimal
import MessagePack.Proofs.Table
import MessagePack.Proofs.Settings
import MessagePack.Proofs.Discarding
import MessagePack.Proofs.Listing
import MessagePack.Proofs.Legacy
import MessagePack.Proofs.Guards
import MessagePack.Proofs.Completion
import MessagePack.Proofs.Scalars
import MessagePack.Proofs.Keys
import MessagePack.Proofs.Parts
import MessagePack.Proofs.Lookup
import MessagePack.Proofs.Rendering
import MessagePack.Proofs.Totals
import MessagePack.Proofs.FromSource
import MessagePack.Proofs.Boundary
import MessagePack.Proofs.Sameness
import MessagePack.Proofs.Holding
import MessagePack.Proofs.Insertion
import MessagePack.Proofs.Outermost
import MessagePack.Proofs.Runs
import MessagePack.Proofs.Quoting
