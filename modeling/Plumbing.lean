import Plumbing.Error
import Plumbing.Refusal
import Plumbing.Text.Utf8
import Plumbing.Text.Blank
import Plumbing.Scan.Split
import Plumbing.Scan.Splitter
import Plumbing.Scan.Scanner
import Plumbing.Scan.Probe
import Plumbing.Stream.Source
import Plumbing.Stream.SegmentQueue
import Plumbing.Broadcast.Reader
import Plumbing.Broadcast.Hub
import Plumbing.Broadcast.Session
import Plumbing.Broadcast.Interleaving
import Plumbing.Fanout.Sink
import Plumbing.Fanout.Writer
import Plumbing.Fanout.Session
import Plumbing.Fanout.Interleaving
import Plumbing.Stream.Drain
import Plumbing.Prefetch.Reader
import Plumbing.Prefetch.Session
import Plumbing.Prefetch.Interleaving
import Plumbing.Prefetch.Lifecycle
import Plumbing.Pool.Segments
import Plumbing.Options
import Plumbing.Stream.WriterSink
import Plumbing.Proofs.Stream.SegmentQueue
import Plumbing.Proofs.Broadcast.Reader
import Plumbing.Proofs.Stream.Outcome
import Plumbing.Proofs.Broadcast.Registrations
import Plumbing.Proofs.Broadcast.Delivery
import Plumbing.Proofs.Scan.Chunking
import Plumbing.Proofs.Scan.Lines
import Plumbing.Proofs.Scan.Runes
import Plumbing.Proofs.Scan.Words
import Plumbing.Proofs.Scan.Lifecycle
import Plumbing.Proofs.Scan.Writes
import Plumbing.Proofs.Broadcast.History
import Plumbing.Proofs.Broadcast.Terminals
import Plumbing.Proofs.Broadcast.Backlog
import Plumbing.Proofs.Broadcast.Abort
import Plumbing.Proofs.Prefetch.Reads
import Plumbing.Proofs.Prefetch.Schedules
import Plumbing.Proofs.Fanout.Replication
import Plumbing.Fanout.Sends
import Plumbing.Proofs.Fanout.Steps
import Plumbing.Proofs.Fanout.Propagation
import Plumbing.Proofs.Fanout.Workers
import Plumbing.Proofs.Scan.Trace
import Plumbing.Proofs.Scan.Flush
import Plumbing.Proofs.Stream.Fifo
import Plumbing.Proofs.Broadcast.Offers
import Plumbing.Proofs.Stream.Cut
import Plumbing.Proofs.Broadcast.Segmentation
import Plumbing.Proofs.Broadcast.Loop
import Plumbing.Proofs.Stream.FullRead
import Plumbing.Proofs.Scan.Progress
import Plumbing.Proofs.Prefetch.Lifecycle
