import Shimmy.Concurrency.Lts
import Shimmy.Concurrency.Memory
import Shimmy.Concurrency.Window
import Shimmy.Ring.Config
import Shimmy.Ring.Producer
import Shimmy.Ring.Consumer
import Shimmy.Ring.Image
import Shimmy.Ring.Publish
import Shimmy.Ring.System
import Shimmy.Ring.Sound
import Shimmy.Ring.Session
import Shimmy.Ring.View
import Shimmy.Ring.Round
import Shimmy.Overwrite.Seqlock
import Shimmy.Ring.Tally
import Shimmy.Ring.Whole
import Shimmy.Overwrite.Progress
import Shimmy.Backpressure.Cursor
import Shimmy.Backpressure.Owner
import Shimmy.Backpressure.Pace
import Shimmy.Backpressure.Guard
import Shimmy.Backpressure.Lossless
import Shimmy.Backpressure.Cursorless
import Shimmy.Backpressure.Attach
import Shimmy.Wait.Sleep
import Shimmy.Wait.Census
import Shimmy.Wait.Wakeup
import Shimmy.Wait.Process
import Shimmy.Wait.Agreement
import Shimmy.Wait.Compare
import Shimmy.Concurrency.Custody
import Shimmy.Concurrency.Log
import Shimmy.Log.Operation
import Shimmy.Log.Bounded
import Shimmy.Log.Refinement
import Shimmy.Segment.Header
import Shimmy.Segment.System
import Shimmy.Segment.Sighting
import Shimmy.Segment.Lifecycle
import Shimmy.Segment.Fleet
import Shimmy.Segment.Books
import Shimmy.Segment.Begun
import Shimmy.Segment.Account
import Shimmy.Segment.Naming
import Shimmy.Segment.Ownership
import Shimmy.Segment.Phantom
import Shimmy.Backpressure.Audit
import Shimmy.Backpressure.Waiting
import Shimmy.Backpressure.Registry
import Shimmy.Overwrite.Recovery
import Shimmy.Concurrency.Runs
import Shimmy.Bytes.Layout
import Shimmy.Segment.Layout
import Shimmy.Segment.Format
import Shimmy.Weak.Inclusion
import Shimmy.Weak.Recovery
import Shimmy.Weak.Handshake
import Shimmy.Bytes.Machine
import Shimmy.Segment.Footprint
import Shimmy.Segment.Raw
import Shimmy.Ring.Tso
import Shimmy.Overwrite.Isolation
import Shimmy.Ring.WaitFree
import Shimmy.Backpressure.Scan
import Shimmy.Backpressure.Arrival
import Shimmy.Weak.Delivery
