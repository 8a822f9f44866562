import Lzma.Text.Event
import Lzma.Script.Source
import Lzma.Script.Sink
import Lzma.Script.Memory
import Lzma.Script.Decoder
import Lzma.Proofs.Fair
import Lzma.Proofs.OneShot
import Lzma.Proofs.Pumping
import Lzma.Proofs.Acquisition
import Lzma.Proofs.Extraction
import Lzma.Proofs.Arrival
import Lzma.Proofs.Extent
import Lzma.Proofs.Interval
import Lzma.Proofs.Reading
import Lzma.Proofs.HeaderCodec
import Lzma.Proofs.Expansion
import Lzma.Proofs.Drafting
import Lzma.Proofs.Encoding
import Lzma.Proofs.Compression
import Lzma.Proofs.Outline
import Lzma.Proofs.RoundTrip
import Lzma.Proofs.Likeness
import Lzma.Proofs.Trace
import Lzma.Proofs.Faithful
import Lzma.Proofs.Endless
import Lzma.Proofs.Yield
import Lzma.Proofs.Settling
import Lzma.Proofs.Acceptance
import Lzma.Proofs.Invariant
import Lzma.Proofs.Upkeep
import Lzma.Proofs.Alongside
import Lzma.Proofs.Account
import Lzma.Proofs.SinkFault
import Lzma.Proofs.Outcome
import Lzma.Proofs.Adapters
import Lzma.Proofs.Custody
import Lzma.Proofs.Lifecycle
import Lzma.Proofs.Bookkeeping
import Lzma.Proofs.Requests
import Lzma.Proofs.Setup
import Lzma.Proofs.Dictionary
import Lzma.Proofs.HeaderFields
import Lzma.Proofs.Feeding
import Lzma.Proofs.Resumption
import Lzma.Proofs.Closing
import Lzma.Coder.Buffers
import Lzma.Proofs.Containment
import Lzma.Proofs.Enough
import Lzma.Proofs.Gathering
import Lzma.Proofs.HeaderExact
import Lzma.Proofs.Milestones
import Lzma.Proofs.Bindings
import Lzma.Proofs.DeclaredSize
import Lzma.Proofs.Intake
